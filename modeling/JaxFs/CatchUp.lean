import JaxFs.DownloadPins
import JaxFs.LogAgreement
import JaxFs.MemoryLog
import JaxFs.SyncBucketApply

/-!
# Catching up

A run of a sync job applies one version, so that a peer that is behind by several versions
takes several runs.  When the versions are served, signed by one owner of all of them and
the log is open for them, each run applies the oldest of those that are missing, also when
the queue has no room for its pins job.  As many runs as there are versions lead to the
target, and fewer do not.
-/

namespace JaxFs

open BucketLogProvider

section

variable [P : Primitives] {σ : Type}

/-! ## Downloads that succeed -/

section

variable {env : PeerEnv} {peerIds : List PublicKey} {state : PeerState σ}

/-- A visible manifest is downloaded and read. -/
theorem run_download_of_visible {link : Link} {manifest : Manifest}
    (h : visibleManifest env peerIds state link = some manifest) :
    ∃ state', (downloadHash env link peerIds).run state = .ok () state' ∧
      (getManifest link : SyncM σ Manifest).run state' = .ok manifest state' ∧
      SameView env peerIds state state' := by
  have hview := sameView_downloadHash env link peerIds state
  rcases downloadHash_cases env link peerIds state with
    ⟨state', hrun, -, hfetched⟩ | ⟨-, hnone⟩
  · refine ⟨state', hrun, ?_, ?_⟩
    · unfold getManifest EStateM.run
      dsimp only
      rw [hfetched.blobs, if_pos List.mem_cons_self]
      unfold visibleManifest at h
      rw [h]
    · rw [hrun] at hview
      exact hview
  · unfold visibleManifest at h
    rw [hnone] at h
    contradiction

theorem run_downloadManifests_of_walk {stop : Option Link} {link : Link}
    {chain : List (Manifest × Link)}
    (hwalk : Walk (visibleManifest env peerIds state) stop link chain)
    (hstop : ∀ ancestor, stop = some ancestor →
      (visibleManifest env peerIds state ancestor).isSome)
    {fuel : ℕ} (hfuel : chain.length < fuel) :
    ∃ state', (downloadManifests env stop peerIds fuel link).run state = .ok chain state' ∧
      SameView env peerIds state state' := by
  induction fuel generalizing link chain state with
  | zero => omega
  | succ fuel ih =>
      unfold downloadManifests
      cases hwalk with
      | stopped hlink =>
          obtain ⟨manifest, hmanifest⟩ := Option.isSome_iff_exists.mp (hstop link hlink)
          obtain ⟨state', hrun, hread, hview⟩ := run_download_of_visible hmanifest
          rw [EStateM.run_bind_of_ok hrun, EStateM.run_bind_of_ok hread, if_pos hlink]
          exact ⟨state', rfl, hview⟩
      | genesis hlink hmanifest hprevious =>
          obtain ⟨state', hrun, hread, hview⟩ := run_download_of_visible hmanifest
          rw [EStateM.run_bind_of_ok hrun, EStateM.run_bind_of_ok hread, if_neg hlink,
            hprevious]
          exact ⟨state', rfl, hview⟩
      | @step _ previous manifest older hlink hmanifest hprevious hrest =>
          obtain ⟨middle, hrun, hread, hview⟩ := run_download_of_visible hmanifest
          rw [← hview.visibleManifest_eq] at hrest hstop
          have hlength : older.length < fuel := by
            rw [List.length_cons] at hfuel
            omega
          obtain ⟨state', holder, hview'⟩ := ih hrest hstop hlength
          refine ⟨state', ?_, hview.trans hview'⟩
          rw [EStateM.run_bind_of_ok hrun, EStateM.run_bind_of_ok hread, if_neg hlink,
            hprevious]
          dsimp only
          rw [EStateM.run_bind_of_ok holder]
          rfl

end

theorem run_loadTrustedBase_of_read {state : PeerState σ} {link : Link} {base : Manifest}
    (hread : (getManifest link : SyncM σ Manifest).run state = .ok base state) :
    (loadTrustedBase (some link) : SyncM σ (Option Manifest)).run state =
      .ok (some base) state := by
  unfold loadTrustedBase
  dsimp only
  rw [EStateM.run_bind_of_ok hread]
  rfl

section

variable [BucketLogProvider σ] {env : PeerEnv} {peerIds : List PublicKey}

/-- The search comes to the newest version that is logged. -/
theorem run_findCommonAncestor_of_walk {state : PeerState σ} {bucketId : Uuid}
    {ancestor link : Link} {chain : List (Manifest × Link)} {base : Manifest}
    (hwalk : Walk (visibleManifest env peerIds state) (some ancestor) link chain)
    (honChain : OnChain (visibleManifest env peerIds state) link ancestor)
    (hbase : visibleManifest env peerIds state ancestor = some base)
    (hnew : ∀ entry ∈ chain, has state.logs bucketId entry.2 = .ok [])
    (hknown : ∃ height heights, has state.logs bucketId ancestor = .ok (height :: heights))
    {fuel : ℕ} (hfuel : chain.length < fuel) :
    ∃ state', (findCommonAncestor env bucketId peerIds fuel link).run state =
        .ok (some (ancestor, base.height)) state' ∧
      (getManifest ancestor : SyncM σ Manifest).run state' = .ok base state' ∧
      SameView env peerIds state state' := by
  induction fuel generalizing link chain state with
  | zero => omega
  | succ fuel ih =>
      unfold findCommonAncestor
      cases hwalk with
      | stopped hlink =>
          cases hlink
          obtain ⟨height, heights, hhas⟩ := hknown
          obtain ⟨state', hrun, hread, hview⟩ := run_download_of_visible hbase
          refine ⟨state', ?_, hread, hview⟩
          rw [EStateM.run_bind_of_ok hrun, EStateM.run_bind_of_ok hread, EStateM.run_get_bind,
            hview.logs, hhas]
          rfl
      | genesis hlink hmanifest hprevious =>
          have hne : link ≠ ancestor := fun heq => hlink (congrArg some heq.symm)
          exact absurd hprevious (honChain.not_genesis hne hmanifest)
      | @step _ previous manifest older hlink hmanifest hprevious hrest =>
          have hne : link ≠ ancestor := fun heq => hlink (congrArg some heq.symm)
          have honRest := honChain.previous hne hmanifest hprevious
          have hhas := hnew _ List.mem_cons_self
          obtain ⟨middle, hrun, hread, hview⟩ := run_download_of_visible hmanifest
          rw [← hview.visibleManifest_eq] at hrest honRest hbase
          rw [← hview.logs] at hnew hknown hhas
          have hlength : older.length < fuel := by
            rw [List.length_cons] at hfuel
            omega
          obtain ⟨state', hsearch, hlast, hview'⟩ := ih hrest honRest hbase
            (fun entry hentry => hnew entry (List.mem_cons_of_mem _ hentry)) hknown hlength
          refine ⟨state', ?_, hlast, hview.trans hview'⟩
          rw [EStateM.run_bind_of_ok hrun, EStateM.run_bind_of_ok hread, EStateM.run_get_bind,
            hhas]
          dsimp only
          rw [hprevious]
          exact hsearch

end

/-! ## Chains that are accepted -/

theorem isSigned_of_authorized {shares : Shares} {manifest : Manifest}
    (h : Authorized shares manifest) : manifest.isSigned = true := by
  obtain ⟨hverified, author, hauthor, -⟩ := h
  unfold Manifest.verifySignature at hverified
  unfold Manifest.isSigned
  cases hsignature : manifest.signature with
  | none => simp [hauthor, hsignature] at hverified
  | some signature => simp [hauthor]

theorem verifyAuthor_of_authorized {manifest : Manifest} {previous : Option Manifest}
    (h : Authorized (previous.getD manifest).shares manifest) :
    verifyAuthor manifest previous = .ok .valid :=
  (verifyAuthor_eq_valid_iff (isSigned_of_authorized h)).mpr h

theorem verifyChain_append {previous : Option Manifest} {manifest : Manifest} {link : Link}
    {chain : List (Manifest × Link)} (hchain : verifyChain previous chain = .ok ())
    (hlast : verifyAuthor manifest ((chain.getLast?.map Prod.fst).or previous) = .ok .valid) :
    verifyChain previous (chain ++ [(manifest, link)]) = .ok () := by
  induction chain generalizing previous with
  | nil => exact verifyChain_cons.mpr ⟨⟨_, by simpa using hlast⟩, rfl⟩
  | cons first rest ih =>
      obtain ⟨older, olderLink⟩ := first
      obtain ⟨hfirst, hrest⟩ := verifyChain_cons.mp hchain
      refine verifyChain_cons.mpr ⟨hfirst, ih hrest ?_⟩
      cases rest with
      | nil => simpa using hlast
      | cons second rest =>
          cases hfound : (second :: rest).getLast? with
          | none => simp at hfound
          | some last =>
              rw [List.getLast?_cons_cons, hfound] at hlast
              exact hlast

section

variable {manifestAt : Link → Option Manifest} {stop : Option Link} {link : Link}
  {chain : List (Manifest × Link)}

omit P in
/-- What the loop compares a version with is the manifest of its predecessor. -/
theorem Walk.newest_eq (h : Walk manifestAt stop link chain) {manifest : Manifest}
    (hmanifest : manifestAt link = some manifest) :
    (chain.head?.map Prod.fst).or (stop.bind manifestAt) = some manifest := by
  cases h with
  | stopped hstop => simp [hstop, hmanifest]
  | genesis hstop hfound hprevious =>
      rw [hmanifest] at hfound
      simpa using hfound.symm
  | step hstop hfound hprevious hrest =>
      rw [hmanifest] at hfound
      simpa using hfound.symm

/-- A chain in custody passes the validation loop. -/
theorem verifyChain_of_walk (hwalk : Walk manifestAt stop link chain)
    (honChain : ∀ ancestor, stop = some ancestor → OnChain manifestAt link ancestor)
    (hcustody : ∀ entry ∈ chain, InCustody manifestAt entry.1.height entry.2) :
    verifyChain (stop.bind manifestAt) chain.reverse = .ok () := by
  induction hwalk with
  | stopped hstop => rfl
  | @genesis link manifest hstop hmanifest hprevious =>
      cases hbase : stop with
      | some ancestor =>
          have hne : link ≠ ancestor := by
            rintro rfl
            exact hstop hbase
          exact absurd hprevious ((honChain ancestor hbase).not_genesis hne hmanifest)
      | none =>
          obtain ⟨found, hfound, -, hauthorized⟩ := hcustody _ List.mem_cons_self
          rw [hmanifest] at hfound
          cases hfound
          rw [hprevious] at hauthorized
          exact verifyChain_cons.mpr ⟨⟨_, verifyAuthor_of_authorized hauthorized⟩, rfl⟩
  | @step link previous manifest older hstop hmanifest hprevious hrest ih =>
      obtain ⟨found, hfound, -, hauthorized⟩ := hcustody _ List.mem_cons_self
      rw [hmanifest] at hfound
      cases hfound
      rw [hprevious] at hauthorized
      obtain ⟨predecessor, hpredecessor, hauthorized⟩ := hauthorized
      have holder := ih
        (fun ancestor hancestor => (honChain ancestor hancestor).previous
          (fun heq => hstop (by rw [hancestor, heq])) hmanifest hprevious)
        (fun entry hentry => hcustody entry (List.mem_cons_of_mem _ hentry))
      rw [List.reverse_cons]
      apply verifyChain_append holder
      rw [List.getLast?_reverse, hrest.newest_eq hpredecessor]
      exact verifyAuthor_of_authorized hauthorized

omit P in
/-- The walk to the oldest version of a walk leaves it out. -/
theorem Walk.dropLast {oldest : Manifest × Link} (h : Walk manifestAt stop link chain)
    (holdest : chain.getLast? = some oldest) :
    Walk manifestAt (some oldest.2) link chain.dropLast := by
  induction h with
  | stopped hstop => contradiction
  | genesis hstop hmanifest hprevious =>
      cases holdest
      exact Walk.stopped rfl
  | @step link previous manifest older hstop hmanifest hprevious hrest ih =>
      cases older with
      | nil =>
          cases holdest
          exact Walk.stopped rfl
      | cons first rest =>
          rw [List.getLast?_cons_cons] at holdest
          rw [List.dropLast_cons_cons]
          have hwhole := Walk.step hstop hmanifest hprevious hrest
          have hne := hwhole.link_ne_of_mem (List.mem_of_getLast? holdest)
          exact Walk.step (fun heq => hne (Option.some.inj heq)) hmanifest hprevious
            (ih holdest)

end

/-! ## Heights of a chain -/

section

variable {chain : List (Manifest × Link)} {oldest entry : Manifest × Link}

omit P in
theorem height_lt_of_mem_dropLast
    (hrising : chain.IsChain (fun newer older => newer.1.height = older.1.height + 1))
    (holdest : chain.getLast? = some oldest) (hentry : entry ∈ chain.dropLast) :
    oldest.1.height < entry.1.height := by
  induction chain generalizing entry with
  | nil => contradiction
  | cons first rest ih =>
      cases rest with
      | nil => contradiction
      | cons second rest =>
          rw [List.getLast?_cons_cons] at holdest
          rw [List.dropLast_cons_cons] at hentry
          obtain ⟨hfirst, hrest⟩ := List.isChain_cons_cons.mp hrising
          have hsecond : oldest.1.height ≤ second.1.height := by
            cases rest with
            | nil =>
                cases holdest
                exact le_rfl
            | cons third rest => exact (ih hrest holdest List.mem_cons_self).le
          rcases List.mem_cons.mp hentry with rfl | hlater
          · omega
          · exact ih hrest holdest hlater

omit P in
theorem height_eq_of_getLast?_dropLast {next : Manifest × Link}
    (hrising : chain.IsChain (fun newer older => newer.1.height = older.1.height + 1))
    (holdest : chain.getLast? = some oldest) (hnext : chain.dropLast.getLast? = some next) :
    next.1.height = oldest.1.height + 1 := by
  induction chain with
  | nil => contradiction
  | cons first rest ih =>
      cases rest with
      | nil => contradiction
      | cons second rest =>
          rw [List.getLast?_cons_cons] at holdest
          rw [List.dropLast_cons_cons] at hnext
          obtain ⟨hfirst, hrest⟩ := List.isChain_cons_cons.mp hrising
          cases rest with
          | nil =>
              cases holdest
              cases hnext
              exact hfirst
          | cons third rest =>
              rw [List.dropLast_cons_cons, List.getLast?_cons_cons] at hnext
              exact ih hrest holdest hnext

end

/-! ## One run -/

/-- A provider that answers its queries, and takes a version where the log is free. -/
class OpenBucketLogProvider (σ : Type) [BucketLogProvider σ] : Prop where
  exists_ok : ∀ (log : σ) id, ∃ known, BucketLogProvider.exists log id = .ok known
  has_ok : ∀ (log : σ) id link, ∃ heights, has log id link = .ok heights
  append_first : ∀ (log : σ) {id name link published}, (∀ other, ¬ Logged log id 0 other) →
    (append log id name link none 0 published).1 = .ok ()
  append_next : ∀ (log : σ) {id name link previous below published},
    Logged log id below previous → (∀ other, ¬ Logged log id (below + 1) other) →
    (append log id name link (some previous) (below + 1) published).1 = .ok ()

variable [BucketLogProvider σ]

/-- What is missing between the log and the target of a job, for a log that is free there:
the versions are pending, their predecessors are in place, and one author who has signed
the target is an owner in all of them. -/
structure Behind (env : PeerEnv) (job : SyncBucketJob) (author : PublicKey)
    (state : PeerState σ) (stop : Option Link) (chain : List (Manifest × Link)) : Prop where
  pending : PendingChain env job state stop chain
  base : ∀ ancestor, stop = some ancestor → ∃ manifest,
    visibleManifest env job.target.peerIds state ancestor = some manifest ∧
      OwnerIn manifest.shares author
  owned : ∀ entry ∈ chain, OwnerIn entry.1.shares author
  signed : ∀ latest ∈ chain.head?, latest.1.author = some author
  first : ∀ oldest ∈ chain.getLast?, oldest.1.previous = none → oldest.1.height = 0
  next : ∀ oldest ∈ chain.getLast?, ∀ previous, oldest.1.previous = some previous →
    ∃ below, oldest.1.height = below + 1 ∧ Logged state.logs job.bucketId below previous
  free : ∀ entry ∈ chain, ∀ other, ¬ Logged state.logs job.bucketId entry.1.height other

section

variable [LawfulBucketLogProvider σ] [OpenBucketLogProvider σ] {env : PeerEnv}
  {job : SyncBucketJob} {author : PublicKey} {state : PeerState σ} {stop : Option Link}
  {chain : List (Manifest × Link)} {oldest : Manifest × Link} {fuel : ℕ}

omit [LawfulBucketLogProvider σ] in
theorem Behind.append_ok (h : Behind env job author state stop chain)
    (holdest : chain.getLast? = some oldest) :
    (append state.logs job.bucketId oldest.1.name oldest.2 oldest.1.previous oldest.1.height
      oldest.1.isPublished).1 = .ok () := by
  have hfree := h.free oldest (List.mem_of_getLast? holdest)
  cases hprevious : oldest.1.previous with
  | none =>
      have hheight := h.first oldest holdest hprevious
      rw [hheight] at hfree ⊢
      exact OpenBucketLogProvider.append_first state.logs hfree
  | some previous =>
      obtain ⟨below, hheight, hbelow⟩ := h.next oldest holdest previous hprevious
      rw [hheight] at hfree ⊢
      exact OpenBucketLogProvider.append_next state.logs hbelow hfree

omit [OpenBucketLogProvider σ] in
/-- The oldest version is appended, also when its pins job finds no room in the queue. -/
theorem gainsEntry_of_applyManifestChain {bucketId : Uuid} {manifests : List (Manifest × Link)}
    (hfirst : manifests.head? = some oldest)
    (haccepts : (append state.logs bucketId oldest.1.name oldest.2 oldest.1.previous
      oldest.1.height oldest.1.isPublished).1 = .ok ()) :
    let state' := ((applyManifestChain env bucketId manifests).run state).state
    GainsEntry state.logs state'.logs bucketId oldest.1.height oldest.2 ∧
      state'.world = state.world := by
  unfold applyManifestChain
  rw [hfirst]
  dsimp only
  cases happend : append state.logs bucketId oldest.1.name oldest.2 oldest.1.previous
      oldest.1.height oldest.1.isPublished with
  | mk verdict logs =>
      rw [happend] at haccepts
      cases haccepts
      have hrun : (appendLog bucketId oldest.1.name oldest.2 oldest.1.previous oldest.1.height
          oldest.1.isPublished).run state = .ok () { state with logs := logs } := by
        unfold appendLog EStateM.run
        dsimp only
        rw [happend]
      rw [EStateM.run_bind_of_ok hrun, logs_dispatch, world_dispatch]
      exact ⟨LawfulBucketLogProvider.logged_append happend, rfl⟩

omit [LawfulBucketLogProvider σ] [OpenBucketLogProvider σ] in
/-- The final check accepts the newest version of a chain in custody. -/
theorem Behind.verifyProvenance_eq {latest : Manifest × Link} {base : Option Manifest}
    (h : Behind env job author state stop chain) (hlatest : chain.head? = some latest)
    (hbase : base = stop.bind (visibleManifest env job.target.peerIds state)) :
    verifyProvenance env latest.1 base = .ok .valid := by
  have hmem := List.mem_of_head? hlatest
  obtain ⟨found, hfound, -, hcustody⟩ := h.pending.custody latest hmem
  rw [h.pending.walk.manifestAt_of_mem hmem] at hfound
  cases hfound
  have hverified : latest.1.verifySignature = .ok true := by
    cases hprevious : latest.1.previous with
    | none =>
        rw [hprevious] at hcustody
        exact hcustody.1
    | some previous =>
        rw [hprevious] at hcustody
        obtain ⟨predecessor, -, hauthorized⟩ := hcustody
        exact hauthorized.1
  have howner : OwnerIn (base.getD latest.1).shares author := by
    cases hstop : stop with
    | none =>
        rw [hbase, hstop]
        exact h.owned latest hmem
    | some ancestor =>
        obtain ⟨manifest, hmanifest, howner⟩ := h.base ancestor hstop
        rw [hbase, hstop, Option.bind_some, hmanifest]
        exact howner
  unfold verifyProvenance
  dsimp only
  rw [if_pos (h.pending.ours latest hlatest)]
  exact verifyAuthor_of_authorized ⟨hverified, author, h.signed latest hlatest, howner⟩

/-- What a run leaves: the log has gained the version, and downloads show what was
visible before. -/
def Applies (env : PeerEnv) (job : SyncBucketJob) (entry : Manifest × Link)
    (state state' : PeerState σ) : Prop :=
  GainsEntry state.logs state'.logs job.bucketId entry.1.height entry.2 ∧
    visibleBlob env job.target.peerIds state'.world.blobs =
      visibleBlob env job.target.peerIds state.world.blobs

/-- From the load of the trusted base on. -/
theorem Behind.executeFrom (h : Behind env job author state stop chain)
    (holdest : chain.getLast? = some oldest) (hfuel : chain.length < fuel)
    {before : PeerState σ} (hview : SameView env job.target.peerIds state before)
    {commonAncestor : Option (Link × ℕ)} (hstop : commonAncestor.map Prod.fst = stop)
    (hbase : (loadTrustedBase stop : SyncM σ (Option Manifest)).run before =
      .ok (stop.bind (visibleManifest env job.target.peerIds state)) before) :
    Applies env job oldest state
      ((JaxFs.executeFrom env fuel job commonAncestor).run before).state := by
  have hwalk := h.pending.walk
  have hserved : ∀ ancestor, stop = some ancestor →
      (visibleManifest env job.target.peerIds state ancestor).isSome := by
    intro ancestor hancestor
    obtain ⟨manifest, hmanifest, -⟩ := h.base ancestor hancestor
    rw [hmanifest]
    rfl
  have hverified := verifyChain_of_walk hwalk (fun a ha => (h.pending.known a ha).1)
    h.pending.custody
  rw [← hview.visibleManifest_eq] at hwalk hserved
  obtain ⟨middle, hdownload, hview'⟩ := run_downloadManifests_of_walk hwalk hserved hfuel
  have hall := hview.trans hview'
  have hchain : (downloadManifestChain env fuel job.target.link stop job.target.peerIds
      (stop.bind (visibleManifest env job.target.peerIds state)) :
        SyncM σ (List (Manifest × Link))).run before = .ok chain.reverse middle := by
    unfold downloadManifestChain
    rw [EStateM.run_bind_of_ok hdownload]
    dsimp only
    rw [hverified]
    rfl
  obtain ⟨latest, hlatest⟩ : ∃ latest, chain.head? = some latest := by
    cases chain with
    | nil => contradiction
    | cons first rest => exact ⟨first, rfl⟩
  have haccepts := h.append_ok holdest
  rw [← hall.logs] at haccepts
  have hfirst := List.head?_reverse.trans holdest
  have happly := @gainsEntry_of_applyManifestChain _ _ _ _ env _ _ _ _ hfirst haccepts
  unfold JaxFs.executeFrom
  rw [hstop, EStateM.run_bind_of_ok hbase, EStateM.run_bind_of_ok hchain]
  unfold verifyAndApply
  rw [List.getLast?_reverse, hlatest]
  dsimp only
  rw [h.verifyProvenance_eq hlatest rfl]
  dsimp only at happly ⊢
  obtain ⟨hgains, hworld⟩ := happly
  rw [hall.logs] at hgains
  refine ⟨hgains, ?_⟩
  rw [hworld, hall.visible]

/-- A run on missing versions applies the oldest of them. -/
theorem Behind.execute (h : Behind env job author state stop chain)
    (holdest : chain.getLast? = some oldest) (hfuel : chain.length < fuel) :
    Applies env job oldest state ((JaxFs.execute env fuel job).run state).state := by
  unfold JaxFs.execute
  rw [EStateM.run_get_bind]
  obtain ⟨known, hexists⟩ := OpenBucketLogProvider.exists_ok state.logs job.bucketId
  rw [hexists]
  cases hstop : stop with
  | none =>
      have hunknown := h.pending.unknown hstop
      rw [hexists] at hunknown
      cases hunknown
      rw [hstop] at h
      exact h.executeFrom holdest hfuel (SameView.refl state) rfl rfl
  | some ancestor =>
      rw [hstop] at h
      obtain ⟨honChain, height, heights, hhas⟩ := h.pending.known ancestor rfl
      obtain ⟨base, hvisible, -⟩ := h.base ancestor rfl
      have hlogged := (LawfulBucketLogProvider.mem_has hhas height).mp List.mem_cons_self
      cases known with
      | false =>
          exact absurd hlogged
            (LawfulBucketLogProvider.not_logged_of_not_exists hexists height ancestor)
      | true =>
          obtain ⟨middle, hsearch, hread, hview⟩ := run_findCommonAncestor_of_walk
            h.pending.walk honChain hvisible h.pending.unlogged ⟨height, heights, hhas⟩ hfuel
          have hbase := run_loadTrustedBase_of_read hread
          rw [← hvisible] at hbase
          rw [EStateM.run_bind_of_ok hsearch]
          exact h.executeFrom holdest hfuel hview rfl hbase

/-- What is missing after a run. -/
theorem Behind.next_run {state' : PeerState σ} (h : Behind env job author state stop chain)
    (holdest : chain.getLast? = some oldest) (happlies : Applies env job oldest state state') :
    Behind env job author state' (some oldest.2) chain.dropLast := by
  obtain ⟨hgains, hvisible⟩ := happlies
  have hview : visibleManifest env job.target.peerIds state' =
      visibleManifest env job.target.peerIds state := by
    funext link
    unfold visibleManifest
    rw [hvisible]
  have hmem : oldest ∈ chain := List.mem_of_getLast? holdest
  have hsub : ∀ entry ∈ chain.dropLast, entry ∈ chain :=
    fun entry hentry => List.dropLast_subset chain hentry
  have hlt : ∀ entry ∈ chain.dropLast, oldest.1.height < entry.1.height :=
    fun entry hentry => height_lt_of_mem_dropLast h.pending.rising holdest hentry
  have hwalk := h.pending.walk.dropLast holdest
  have honChain := h.pending.walk.onChain_of_mem hmem
  have hlogged : Logged state'.logs job.bucketId oldest.1.height oldest.2 :=
    (hgains _ _ _).mpr (Or.inr ⟨rfl, rfl, rfl⟩)
  have hhead : ∀ latest ∈ chain.dropLast.head?, latest ∈ chain.head? := by
    intro latest hlatest
    cases chain with
    | nil => contradiction
    | cons first rest =>
        cases rest with
        | nil => contradiction
        | cons second rest => exact hlatest
  constructor
  · constructor
    · rw [hview]
      exact hwalk
    · intro entry hentry
      obtain ⟨heights, hhas⟩ := OpenBucketLogProvider.has_ok state'.logs job.bucketId entry.2
      rw [hhas]
      congr 1
      rw [List.eq_nil_iff_forall_not_mem]
      intro height hheight
      rcases (hgains _ _ _).mp ((LawfulBucketLogProvider.mem_has hhas height).mp hheight) with
        hold | ⟨-, -, hsame⟩
      · have hnone := h.pending.unlogged entry (hsub entry hentry)
        exact absurd ((LawfulBucketLogProvider.mem_has hnone height).mpr hold) List.not_mem_nil
      · -- a link has one manifest, and the manifests differ in height
        have hentryAt := h.pending.walk.manifestAt_of_mem (hsub entry hentry)
        rw [hsame, h.pending.walk.manifestAt_of_mem hmem] at hentryAt
        have hheights := hlt entry hentry
        rw [Option.some.inj hentryAt] at hheights
        exact absurd hheights (lt_irrefl _)
    · intro ancestor hancestor
      cases hancestor
      rw [hview]
      obtain ⟨heights, hhas⟩ := OpenBucketLogProvider.has_ok state'.logs job.bucketId oldest.2
      have hheight := (LawfulBucketLogProvider.mem_has hhas _).mpr hlogged
      cases heights with
      | nil => contradiction
      | cons height heights => exact ⟨honChain, height, heights, hhas⟩
    · intro hnone
      contradiction
    · exact h.pending.rising.dropLast
    · rw [hview]
      exact fun entry hentry => h.pending.custody entry (hsub entry hentry)
    · exact fun latest hlatest => h.pending.ours latest (hhead latest hlatest)
  · intro ancestor hancestor
    cases hancestor
    rw [hview]
    exact ⟨oldest.1, h.pending.walk.manifestAt_of_mem hmem, h.owned oldest hmem⟩
  · exact fun entry hentry => h.owned entry (hsub entry hentry)
  · exact fun latest hlatest => h.signed latest (hhead latest hlatest)
  · intro next hnext hprevious
    have hstops := hwalk.previous_of_getLast? (fun ancestor hancestor => by
      cases hancestor
      exact honChain) hnext
    rw [hprevious] at hstops
    contradiction
  · intro next hnext previous hprevious
    have hstops := hwalk.previous_of_getLast? (fun ancestor hancestor => by
      cases hancestor
      exact honChain) hnext
    rw [hprevious] at hstops
    cases hstops
    exact ⟨_, height_eq_of_getLast?_dropLast h.pending.rising holdest hnext, hlogged⟩
  · intro entry hentry other hother
    rcases (hgains _ _ _).mp hother with hold | ⟨-, hsame, -⟩
    · exact h.free entry (hsub entry hentry) other hold
    · have hheights := hlt entry hentry
      omega

/-- With nothing missing a run changes nothing but what is stored. -/
theorem Behind.execute_done (h : Behind env job author state stop []) (hfuel : 0 < fuel) :
    SameView env job.target.peerIds state ((JaxFs.execute env fuel job).run state).state := by
  have hstop : stop = some job.target.link := by
    cases h.pending.walk with
    | stopped hstop => exact hstop
  subst hstop
  obtain ⟨honChain, height, heights, hhas⟩ := h.pending.known _ rfl
  obtain ⟨base, hvisible, -⟩ := h.base _ rfl
  have hlogged := (LawfulBucketLogProvider.mem_has hhas height).mp List.mem_cons_self
  unfold JaxFs.execute
  rw [EStateM.run_get_bind]
  obtain ⟨known, hexists⟩ := OpenBucketLogProvider.exists_ok state.logs job.bucketId
  rw [hexists]
  cases known with
  | false =>
      exact absurd hlogged
        (LawfulBucketLogProvider.not_logged_of_not_exists hexists height _)
  | true =>
      obtain ⟨middle, hsearch, hread, hview⟩ := run_findCommonAncestor_of_walk
        h.pending.walk honChain hvisible h.pending.unlogged ⟨height, heights, hhas⟩ hfuel
      rw [EStateM.run_bind_of_ok hsearch]
      have hwalk := h.pending.walk
      have hserved : ∀ ancestor, some job.target.link = some ancestor →
          (visibleManifest env job.target.peerIds middle ancestor).isSome := by
        intro ancestor hancestor
        cases hancestor
        rw [hview.visibleManifest_eq, hvisible]
        rfl
      rw [← hview.visibleManifest_eq] at hwalk
      obtain ⟨last, hdownload, hview'⟩ := run_downloadManifests_of_walk hwalk hserved hfuel
      have hchain : (downloadManifestChain env fuel job.target.link (some job.target.link)
          job.target.peerIds (some base) : SyncM σ (List (Manifest × Link))).run middle =
            .ok [] last := by
        unfold downloadManifestChain
        rw [EStateM.run_bind_of_ok hdownload]
        rfl
      unfold JaxFs.executeFrom
      dsimp only [Option.map_some]
      rw [EStateM.run_bind_of_ok (run_loadTrustedBase_of_read hread),
        EStateM.run_bind_of_ok hchain]
      exact hview.trans hview'

omit [LawfulBucketLogProvider σ] [OpenBucketLogProvider σ] in
theorem Behind.congr {state' : PeerState σ} (h : Behind env job author state stop chain)
    (hview : SameView env job.target.peerIds state state') :
    Behind env job author state' stop chain := by
  constructor
  · constructor
    · rw [hview.visibleManifest_eq]
      exact h.pending.walk
    · rw [hview.logs]
      exact h.pending.unlogged
    · rw [hview.visibleManifest_eq, hview.logs]
      exact h.pending.known
    · rw [hview.logs]
      exact h.pending.unknown
    · exact h.pending.rising
    · rw [hview.visibleManifest_eq]
      exact h.pending.custody
    · exact h.pending.ours
  · rw [hview.visibleManifest_eq]
    exact h.base
  · exact h.owned
  · exact h.signed
  · exact h.first
  · rw [hview.logs]
    exact h.next
  · rw [hview.logs]
    exact h.free

/-! ## Many runs -/

/-- Runs of the job one after the other; between two runs the queue may change. -/
inductive SyncRuns (env : PeerEnv) (fuel : ℕ) (job : SyncBucketJob) :
    ℕ → PeerState σ → PeerState σ → Prop
  | none (state : PeerState σ) : SyncRuns env fuel job 0 state state
  | next {runs : ℕ} {state state' : PeerState σ} (jobs : List SyncJob)
      (hrest : SyncRuns env fuel job runs
        ((execute env fuel job).run { state with jobs := jobs }).state state') :
      SyncRuns env fuel job (runs + 1) state state'

theorem Behind.logged_runs {runs : ℕ} {state' : PeerState σ}
    (h : Behind env job author state stop chain) (hfuel : chain.length < fuel)
    (hruns : SyncRuns env fuel job runs state state') (id : Uuid) (height : ℕ) (link : Link) :
    Logged state'.logs id height link ↔
      Logged state.logs id height link ∨ (id = job.bucketId ∧
        ∃ entry ∈ chain.reverse.take runs, entry.1.height = height ∧ entry.2 = link) := by
  induction hruns generalizing stop chain with
  | none state => simp
  | @next runs state state' jobs hrest ih =>
      have hqueue : SameView env job.target.peerIds state { state with jobs := jobs } :=
        ⟨rfl, rfl⟩
      have h := h.congr hqueue
      cases holdest : chain.getLast? with
      | none =>
          rw [List.getLast?_eq_none_iff] at holdest
          subst holdest
          have hview := h.execute_done (Nat.zero_lt_of_lt hfuel)
          rw [ih (h.congr hview) hfuel, hview.logs]
          simp
      | some oldest =>
          have happlies := h.execute holdest hfuel
          have hlength : chain.dropLast.length < fuel := by
            rw [List.length_dropLast]
            omega
          have hsplit : chain.reverse = oldest :: chain.dropLast.reverse := by
            obtain ⟨older, rfl⟩ := List.getLast?_eq_some_iff.mp holdest
            simp
          rw [ih (h.next_run holdest happlies) hlength, happlies.1, hsplit, List.take_succ_cons]
          simp only [List.mem_cons, exists_eq_or_imp]
          rw [or_assoc, ← and_or_left, @eq_comm _ height, @eq_comm _ link]

omit [LawfulBucketLogProvider σ] [OpenBucketLogProvider σ] in
/-- The newest missing version is the target. -/
theorem Behind.head_eq_target {first : Manifest × Link} {rest : List (Manifest × Link)}
    (h : Behind env job author state stop (first :: rest)) : first.2 = job.target.link := by
  cases h.pending.walk with
  | genesis _ _ _ => rfl
  | step _ _ _ _ => rfl

/-- The same job, run after run, whatever happens to the queue: each run logs the oldest of
the versions that are missing, and nothing else, until all of them are there.  The target is
logged after as many runs as versions were missing, and not before. -/
theorem repeated_sync_catches_up (env : PeerEnv) (job : SyncBucketJob) (author : PublicKey)
    (state state' : PeerState σ) (stop : Option Link) (chain : List (Manifest × Link))
    (fuel runs : ℕ) (h : Behind env job author state stop chain)
    (hfuel : chain.length < fuel) (hruns : SyncRuns env fuel job runs state state') :
    (∀ id height link, Logged state'.logs id height link ↔
      Logged state.logs id height link ∨ (id = job.bucketId ∧
        ∃ entry ∈ chain.reverse.take runs, entry.1.height = height ∧ entry.2 = link)) ∧
    ((∃ height, Logged state'.logs job.bucketId height job.target.link) ↔
      chain.length ≤ runs) := by
  have hlogged := h.logged_runs hfuel hruns
  refine ⟨hlogged, ?_⟩
  cases chain with
  | nil =>
      have hstop : stop = some job.target.link := by
        cases h.pending.walk with
        | stopped hstop => exact hstop
      obtain ⟨-, height, heights, hhas⟩ := h.pending.known _ hstop
      have hknown := (LawfulBucketLogProvider.mem_has hhas height).mp List.mem_cons_self
      exact iff_of_true ⟨height, (hlogged _ _ _).mpr (Or.inl hknown)⟩ (Nat.zero_le runs)
  | cons first rest =>
      have htarget := h.head_eq_target
      constructor
      · rintro ⟨height, hheight⟩
        by_contra hfew
        rcases (hlogged _ _ _).mp hheight with hold | ⟨-, entry, hentry, -, hlink⟩
        · have hnone := h.pending.unlogged first List.mem_cons_self
          rw [htarget] at hnone
          exact absurd ((LawfulBucketLogProvider.mem_has hnone height).mpr hold)
            List.not_mem_nil
        · have hle : runs ≤ rest.reverse.length := by
            rw [List.length_cons] at hfew
            rw [List.length_reverse]
            omega
          rw [List.reverse_cons, List.take_append_of_le_length hle] at hentry
          have holder := List.mem_reverse.mp (List.mem_of_mem_take hentry)
          exact h.pending.walk.link_ne_of_mem holder hlink
      · intro hmany
        refine ⟨first.1.height, (hlogged _ _ _).mpr (Or.inr ⟨rfl, first, ?_, rfl, htarget⟩)⟩
        rw [List.take_of_length_le (by rw [List.length_reverse]; exact hmany)]
        exact List.mem_reverse.mpr List.mem_cons_self

end

end

/-! ## The in-memory provider -/

namespace MemoryBucketLogProvider

open MemoryBucketLogProviderInner

/-- Where the log is free the checks of `append` look for the predecessor only. -/
theorem not_mem_of_free {log : MemoryBucketLogProvider} {id : Uuid} {height : ℕ}
    (hfree : ∀ other, ¬ Logged log id height other) (link : Link) :
    link ∉ (((log.inner.entries.get? id).getD KeyedMap.empty).get? height).getD [] := by
  rw [← linksAt_eq, ← logged_iff]
  exact hfree link

instance : OpenBucketLogProvider MemoryBucketLogProvider where
  exists_ok _ _ := ⟨_, rfl⟩
  has_ok _ _ _ := ⟨_, rfl⟩
  append_first log _ _ link _ hfree := by
    apply append_of_none
    unfold appendError
    rw [if_neg (not_mem_of_free hfree link)]
    simp
  append_next log _ _ link _ below _ hbelow hfree := by
    rw [logged_iff, linksAt_eq] at hbelow
    apply append_of_none
    unfold appendError
    rw [if_neg (not_mem_of_free hfree link)]
    dsimp only
    rw [if_neg (Nat.succ_ne_zero below), Nat.add_sub_cancel, if_pos hbelow]

end MemoryBucketLogProvider

namespace Reference

theorem genesisPeer_free :
    (genesisPeer.logs.inner.entries.get? ⟨7⟩).map (fun bucket => bucket.toList.map Prod.fst) =
      some [0] := by
  decide +kernel

theorem alice_owns_third :
    (third alice).shares.get? (primitives.publicKey alice).toHex =
      some (Share.newOwner ⟨[]⟩ (primitives.publicKey alice)) := by
  decide +kernel

/-- Bob has the genesis, and is told of the version after the next. -/
theorem missing_third : Behind (peerEnv bob alice) (jobTo (third alice))
    (primitives.publicKey alice) genesisPeer (some (manifestLink genesis))
    [(third alice, manifestLink (third alice)), (second, manifestLink second)] where
  pending := pendingChain_third
  base := by
    intro ancestor hancestor
    cases hancestor
    exact ⟨genesis, visibleToBob_genesis, _, signed_by_owner.2.1, rfl⟩
  owned := by
    intro entry hentry
    rcases List.mem_cons.mp hentry with rfl | hentry
    · exact ⟨_, alice_owns_third, rfl⟩
    · rw [List.mem_singleton.mp hentry]
      exact ⟨_, signed_by_owner.2.2, rfl⟩
  signed := by
    intro latest hlatest
    cases hlatest
    rfl
  first := by
    intro oldest holdest hprevious
    cases holdest
    contradiction
  next := by
    intro oldest holdest previous hprevious
    cases holdest
    cases hprevious
    exact ⟨0, rfl, (LawfulBucketLogProvider.mem_has genesis_known.1 0).mp List.mem_cons_self⟩
  free := by
    intro entry hentry
    apply MemoryBucketLogProvider.not_logged_of_heights genesisPeer_free
    rcases List.mem_cons.mp hentry with rfl | hentry
    · decide
    · rw [List.mem_singleton.mp hentry]
      decide

theorem third_logged_after_two_runs :
    ∃ state' state'', SyncRuns (peerEnv bob alice) 3 (jobTo (third alice)) 1 genesisPeer state' ∧
      SyncRuns (peerEnv bob alice) 3 (jobTo (third alice)) 2 genesisPeer state'' ∧
      (¬ ∃ height, Logged state'.logs ⟨7⟩ height (manifestLink (third alice))) ∧
      ∃ height, Logged state''.logs ⟨7⟩ height (manifestLink (third alice)) := by
  have hone : SyncRuns (peerEnv bob alice) 3 (jobTo (third alice)) 1 genesisPeer _ :=
    .next [] (.none _)
  have htwo : SyncRuns (peerEnv bob alice) 3 (jobTo (third alice)) 2 genesisPeer _ :=
    .next [] (.next [] (.none _))
  refine ⟨_, _, hone, htwo, ?_, ?_⟩
  · intro hlogged
    have hcatches := repeated_sync_catches_up _ _ _ _ _ _ _ 3 1 missing_third (by simp) hone
    exact absurd (hcatches.2.mp hlogged) (by simp)
  · have hcatches := repeated_sync_catches_up _ _ _ _ _ _ _ 3 2 missing_third (by simp) htwo
    exact hcatches.2.mpr (by simp)

end Reference

end JaxFs

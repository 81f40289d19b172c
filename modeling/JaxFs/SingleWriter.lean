import JaxFs.JobQueue
import JaxFs.MemoryLog
import JaxFs.ReplicatedHistory

/-!
# One writer

A bucket that one peer saves, and each time from the newest version in its log, while the
others only get to know of it by pings and sync jobs.  In every order of steps and with any
loss of messages such a network replicates the history of the writer: a save publishes a
version, and a sync job copies one version or none.
-/

namespace JaxFs

open BucketLogProvider
open ReplicatedHistory (Covers)

section

variable [P : Primitives] {σ : Type} [BucketLogProvider σ]

/-! ## Entries that local work adds -/

section

variable [LawfulBucketLogProvider σ]

omit P in
theorem append_entries {logs : σ} {id : Uuid} {name : Name} {current : Link}
    {previous : Option Link} {height : ℕ} {published : Bool} :
    SameEntries logs (append logs id name current previous height published).2 ∨
      GainsEntry logs (append logs id name current previous height published).2 id height
        current := by
  cases happend : append logs id name current previous height published with
  | mk verdict logs' =>
      cases verdict with
      | ok _ => exact Or.inr (LawfulBucketLogProvider.logged_append happend)
      | error error => exact Or.inl (LawfulBucketLogProvider.logged_append_error happend)

theorem create_entries (env : PeerEnv) (id : Uuid) (name : Name) (state : PeerState σ) :
    SameEntries state.logs ((create env id name).run state).state.logs ∨
      ∃ link, GainsEntry state.logs ((create env id name).run state).state.logs id 0 link := by
  have hsame : SameEntries state.logs state.logs := fun _ _ _ => Iff.rfl
  rw [EStateM.run]
  unfold create
  split_ifs
  · exact Or.inl hsame
  · cases (init id name env.secretKey).run state.world with
    | error fault world => exact Or.inl hsame
    | ok mount world =>
        have hentries := @append_entries _ _ _ state.logs id name mount.link none 0 false
        dsimp only
        cases happend : append state.logs id name mount.link none 0 false with
        | mk verdict logs =>
            rw [happend] at hentries
            cases verdict with
            | ok _ => exact hentries.imp_right (fun hgains => ⟨mount.link, hgains⟩)
            | error error => exact hentries.imp_right (fun hgains => ⟨mount.link, hgains⟩)

omit [LawfulBucketLogProvider σ] in
theorem logs_saveMount_of_save {env : PeerEnv} {publish : Bool} {state : PeerMount σ}
    {link previousLink : Link} {height : ℕ} {mount : MountState}
    (hsave : (save publish).run state.mount = .ok (link, previousLink, height) mount) :
    ((saveMount env publish).run state).state.peer.logs =
      (append state.peer.logs state.inner.manifest.id state.inner.manifest.name link
        (some previousLink) height mount.inner.manifest.isPublished).2 := by
  have happend := state_appendVersion state.inner.manifest.id state.inner.manifest.name link
    previousLink height mount.inner.manifest.isPublished (state.setMount mount)
  have hpings := logs_pingShares (σ := σ) env state.inner.manifest.id
    (mount.inner.manifest.shares.toList.map Prod.fst)
  have hrest : EStateM.Preserves
      (fun state state' : PeerMount σ => state'.peer.logs = state.peer.logs) (do
        pingShares env state.inner.manifest.id
          (mount.inner.manifest.shares.toList.map Prod.fst)
        pure link : PeerM σ Link) :=
    hpings.bind (fun _ _ _ h h' => h'.trans h) (fun _ _ => rfl)
  rw [run_saveMount_of_save hsave]
  cases hrun : (appendVersion state.inner.manifest.id state.inner.manifest.name link
      previousLink height mount.inner.manifest.isPublished).run (state.setMount mount) with
  | error fault state' =>
      rw [EStateM.run_bind_of_error hrun]
      rw [hrun, EStateM.Result.state_error] at happend
      rw [EStateM.Result.state_error, happend]
      rfl
  | ok _ state' =>
      rw [EStateM.run_bind_of_ok hrun, hrest state']
      rw [hrun, EStateM.Result.state_ok] at happend
      rw [happend]
      rfl

/-- A save adds one version on top of the one that the mount was opened on, or none. -/
theorem saveMount_entries (env : PeerEnv) (publish : Bool) (state : PeerMount σ) :
    SameEntries state.peer.logs ((saveMount env publish).run state).state.peer.logs ∨
      ∃ link below, GainsEntry state.peer.logs
          ((saveMount env publish).run state).state.peer.logs state.inner.manifest.id
          (below + 1) link ∧
        Logged state.peer.logs state.inner.manifest.id below state.inner.link := by
  cases hsave : (save publish).run state.mount with
  | error fault mount =>
      unfold saveMount
      rw [run_getPeer_bind, EStateM.run_bind_of_error (run_onMount_of_error hsave)]
      exact Or.inl (fun _ _ _ => Iff.rfl)
  | ok result mount =>
      obtain ⟨manifest, world', -, hresult, -⟩ := run_save_eq_ok hsave
      obtain ⟨link, previousLink, height⟩ := result
      cases hresult
      rw [logs_saveMount_of_save hsave]
      cases happend : append state.peer.logs state.inner.manifest.id
          state.inner.manifest.name link (some state.mount.inner.link)
          (state.mount.inner.height + 1) mount.inner.manifest.isPublished with
      | mk verdict logs =>
          cases verdict with
          | error error =>
              exact Or.inl (LawfulBucketLogProvider.logged_append_error happend)
          | ok _ =>
              obtain ⟨below, hheight, hbelow⟩ :=
                LawfulBucketLogProvider.append_previous happend
              have hgains := LawfulBucketLogProvider.logged_append happend
              rw [hheight] at hgains
              exact Or.inr ⟨link, below, hgains, hbelow⟩

end

/-! ## The condition -/

/-- Local work keeps to one writer.  Where `writes` does not hold there is none on the
bucket, else a new version follows the newest one; sync jobs come from the queue. -/
def PeerAction.InOrder (id : Uuid) (writes : Prop) (system : PeerSystem σ) :
    PeerAction → Prop
  | .create _ newId _ => newId = id →
      writes ∧ ∀ link, ¬ Logged system.peer.logs id 0 link
  | .saveMount _ number _ => ∀ inner, system.mounts[number]? = some inner →
      inner.manifest.id = id → writes ∧ ∀ below, Logged system.peer.logs id below inner.link →
        ∀ link, ¬ Logged system.peer.logs id (below + 1) link
  | .sync _ _ job => job.bucketId ≠ id
  | _ => True

/-- Only the writer saves the bucket, and each time from its newest version. -/
def Network.OneWriter (id : Uuid) (writer : PublicKey) (net : Network σ) :
    NetworkAction → Prop
  | .act key action => action.InOrder id (key = writer) (net.peers key)
  | _ => True

/-- The network beside a replicated history of the bucket: every log has the part of the
history that the peer knows, and the writer knows it all. -/
structure Network.Replicates (id : Uuid) (writer : PublicKey) (net : Network σ)
    (state : ReplicatedHistory PublicKey Link) : Prop where
  sound : state.Sound
  writer : state.known writer = state.history.length
  covers : ∀ key, Covers (Logged (net.peer key).logs id) state.history (state.known key)

/-! ## Local work -/

/-- The log gains the link in the first place of the bucket that is free. -/
structure GainsNext (log log' : σ) (id : Uuid) (top : ℕ) (link : Link) : Prop where
  gains : ∀ height other, Logged log' id height other ↔
    Logged log id height other ∨ (height = top ∧ other = link)
  free : ∀ other, ¬ Logged log id top other
  next : ∀ below, top = below + 1 → ∃ other, Logged log id below other

omit P in
/-- That place is the end of a history that the log has. -/
theorem GainsNext.top_eq {log log' : σ} {id : Uuid} {top : ℕ} {link : Link}
    (h : GainsNext log log' id top link) {history : List Link}
    (hcovers : Covers (Logged log id) history history.length) : top = history.length := by
  have hfree : ¬ top < history.length := by
    intro hlt
    exact h.free history[top] ((hcovers _ _).mpr ⟨hlt, List.getElem?_eq_getElem hlt⟩)
  cases top with
  | zero => omega
  | succ below =>
      obtain ⟨other, hother⟩ := h.next below rfl
      have hlt := ((hcovers _ _).mp hother).1
      omega

section

variable [LawfulPrimitives] [LawfulBucketLogProvider σ] [RootedBucketLogProvider σ]
  {id : Uuid} {writes : Prop}

/-- Local work that keeps to one writer adds the next version of the bucket, if it adds
any. -/
theorem PeerSystem.entries_step (system : PeerSystem σ) (action : PeerAction)
    (h : action.InOrder id writes system) :
    (∀ height link, Logged (system.step action).peer.logs id height link ↔
      Logged system.peer.logs id height link) ∨
    (writes ∧ ∃ top link,
      GainsNext system.peer.logs (system.step action).peer.logs id top link) := by
  cases action with
  | create env newId name =>
      rcases create_entries env newId name system.peer with hsame | ⟨link, hgains⟩
      · exact Or.inl (hsame id)
      · by_cases hid : newId = id
        · subst hid
          obtain ⟨hwrites, hfree⟩ := h rfl
          refine Or.inr ⟨hwrites, 0, link, ⟨?_, hfree, fun below hbelow => ?_⟩⟩
          · intro height other
            exact (hgains _ _ _).trans (by simp)
          · omega
        · left
          intro height other
          exact (hgains _ _ _).trans (by simp [Ne.symm hid])
  | saveMount env number publish =>
      cases hinner : system.mounts[number]? with
      | none =>
          left
          rw [step, hinner]
          exact fun _ _ => Iff.rfl
      | some inner =>
          have hlogs : (system.step (.saveMount env number publish)).peer.logs =
              ((JaxFs.saveMount env publish).run ⟨system.peer, inner⟩).state.peer.logs := by
            rw [step, hinner]
            rfl
          rw [hlogs]
          rcases saveMount_entries env publish ⟨system.peer, inner⟩ with
            hsame | ⟨link, below, hgains, hbelow⟩
          · exact Or.inl (hsame id)
          · by_cases hid : inner.manifest.id = id
            · subst hid
              obtain ⟨hwrites, hfree⟩ := h inner hinner rfl
              refine Or.inr ⟨hwrites, below + 1, link, ⟨?_, hfree below hbelow, ?_⟩⟩
              · intro height other
                exact (hgains _ _ _).trans (by simp)
              · intro below' heq
                obtain rfl := Nat.succ.inj heq
                exact ⟨inner.link, hbelow⟩
            · left
              intro height other
              exact (hgains _ _ _).trans (by simp [Ne.symm hid])
  | sync env fuel job =>
      left
      intro height link
      have hextends := logExtends_execute env fuel job system.peer
      refine ⟨fun hlogged => ?_, hextends.kept id height link⟩
      rcases hextends.added id height link hlogged with hold | ⟨manifest, -, hoffers⟩
      · exact hold
      · exact absurd hoffers.1.symm h
  | mount env bucketId =>
      left
      rw [step]
      cases system.peer.mountHead env bucketId with
      | ok inner => exact fun _ _ => Iff.rfl
      | error fault => exact fun _ _ => Iff.rfl
  | load link secretKey =>
      left
      rw [step]
      cases JaxFs.load system.peer.world.blobs link secretKey with
      | ok inner => exact fun _ _ => Iff.rfl
      | error fault => exact fun _ _ => Iff.rfl
  | operate number action =>
      left
      rw [step]
      cases system.mounts[number]? with
      | none => exact fun _ _ => Iff.rfl
      | some inner =>
          have hlogs := logs_onMount action.run ⟨system.peer, inner⟩
          dsimp only [update]
          rw [hlogs]
          exact fun _ _ => Iff.rfl
  | mergeFrom number incoming fuel resolver =>
      left
      rw [step]
      cases system.mounts[number]? with
      | none => exact fun _ _ => Iff.rfl
      | some inner =>
          cases system.mounts[incoming]? with
          | none => exact fun _ _ => Iff.rfl
          | some other =>
              have hlogs := logs_onMount (mergeFrom fuel other resolver) ⟨system.peer, inner⟩
              dsimp only [update]
              rw [hlogs]
              exact fun _ _ => Iff.rfl

end

/-! ## What one step does to one log -/

section

variable [LawfulPrimitives] [LawfulBucketLogProvider σ] [RootedBucketLogProvider σ]
  {id : Uuid} {writer key : PublicKey} {net : Network σ} {action : NetworkAction}

omit [LawfulBucketLogProvider σ] [RootedBucketLogProvider σ] in
/-- What is behind a logged version is logged, also where other peers serve it. -/
theorem Agrees.logged_of_onChain {peer state : PeerState σ} (h : Agrees peer) {env : PeerEnv}
    {peerIds : List PublicKey} {target link : Link} {height : ℕ}
    (hlogged : Logged peer.logs id height target)
    (hchain : OnChain (visibleManifest env peerIds state) target link) :
    ∃ below, Logged peer.logs id below link := by
  induction hchain with
  | refl => exact ⟨height, hlogged⟩
  | tail _ hprevious ih =>
      obtain ⟨below, hbelow⟩ := ih
      obtain ⟨manifest, hvisible, hnames⟩ := hprevious
      obtain ⟨stored, hdescribes⟩ := h id below _ hbelow
      obtain rfl := visibleManifest_unique hdescribes.stored hvisible
      obtain ⟨earlier, -, hearlier⟩ := hdescribes.below _ hnames
      exact ⟨earlier, hearlier⟩

/-- A sync for a version of the history copies the next version or none. -/
theorem Network.Replicates.sync {state : ReplicatedHistory PublicKey Link}
    (h : net.Replicates id writer state) (hagrees : Agrees (net.peer writer))
    (key : PublicKey) (env : PeerEnv) (fuel : ℕ) (job : SyncBucketJob) {before : PeerState σ}
    (hbefore : before.logs = (net.peer key).logs)
    (htarget : job.bucketId = id →
      ∃ height, Logged (net.peer writer).logs id height job.target.link) :
    let logs := ((execute env fuel job).run before).state.logs
    Covers (Logged logs id) state.history (state.known key) ∨
      (state.known key < state.history.length ∧
        Covers (Logged logs id) state.history (state.known key + 1)) := by
  have hextends := logExtends_execute env fuel job before
  have hcovers := h.covers key
  rw [← hbefore] at hcovers
  apply hcovers.grows (h.sound key) (hextends.kept id)
  intro place link hplace
  rcases hextends.added id place link hplace with hold | ⟨manifest, hdescribes, hoffers⟩
  · exact Or.inl hold
  · right
    obtain ⟨rfl, hchain, hvisible⟩ := hoffers
    obtain ⟨height, hlogged⟩ := htarget rfl
    obtain ⟨number, hnumber⟩ := hagrees.logged_of_onChain hlogged hchain
    obtain ⟨stored, hstored⟩ := hagrees _ number link hnumber
    obtain rfl := visibleManifest_unique hstored.stored hvisible
    have hsame : number = place := hstored.atHeight.symm.trans hdescribes.atHeight
    subst hsame
    refine ⟨?_, (((h.covers writer) _ _).mp hnumber).2⟩
    cases hprevious : stored.previous with
    | none =>
        have hzero := hdescribes.genesis hprevious
        omega
    | some previous =>
        obtain ⟨below, hheight, hbelow⟩ := hdescribes.below previous hprevious
        have hlt := ((hcovers below previous).mp hbelow).1
        omega

namespace Network

/-- What one action does to the log of one peer. -/
inductive LogChange (id : Uuid) (writer : PublicKey) (net : Network σ)
    (state : ReplicatedHistory PublicKey Link) (action : NetworkAction) (key : PublicKey)
    (logs : σ) : Prop where
  | same (hsame : ∀ height link,
      Logged logs id height link ↔ Logged (net.peer key).logs id height link)
  | copied {env : PeerEnv} {fuel : ℕ} (haction : action = .work key env fuel)
      (hbehind : state.known key < state.history.length)
      (hcovers : Covers (Logged logs id) state.history (state.known key + 1))
  | published {local' : PeerAction} (haction : action = .act key local') (hkey : key = writer)
      {link : Link} (hgains : GainsNext (net.peer key).logs logs id state.history.length link)

theorem PeerChange.logChange {state : ReplicatedHistory PublicKey Link}
    (h : net.Replicates id writer state) (hagrees : Agrees (net.peer writer))
    (hclaims : net.ClaimsLogged) (haction : net.OneWriter id writer action)
    {peer : PeerState σ} (hchange : PeerChange net action key peer) :
    LogChange id writer net state action key peer.logs := by
  cases hchange with
  | queue hqueue hkind =>
      obtain ⟨jobs, rfl, -⟩ := hqueue
      exact .same (fun _ _ => Iff.rfl)
  | @act local' haction' =>
      subst haction'
      rcases (net.peers key).entries_step local' haction with hsame | hgains
      · exact .same hsame
      · obtain ⟨hkey, top, link, hgains⟩ := hgains
        have hcovers := h.covers key
        rw [hkey, h.writer, ← hkey] at hcovers
        obtain rfl := hgains.top_eq hcovers
        exact .published rfl hkey hgains
  | taken haction' hjobs => exact .same (fun _ _ => Iff.rfl)
  | @sync env fuel job rest haction' hjobs =>
      subst haction'
      have htarget : job.bucketId = id →
          ∃ height, Logged (net.peer writer).logs id height job.target.link := by
        rintro rfl
        have hmem : SyncJob.syncBucket job ∈ (net.peer key).jobs := by
          rw [hjobs]
          exact List.mem_cons_self
        -- whoever has told of the version has it, and so has the writer
        obtain ⟨teller, hlogged⟩ := hclaims.jobs key _ hmem _ _ _ ⟨rfl, rfl, rfl⟩
        have hentry := ((h.covers teller) _ _).mp hlogged
        refine ⟨job.target.height, ((h.covers writer) _ _).mpr ⟨?_, hentry.2⟩⟩
        have hsound := h.sound teller
        rw [h.writer]
        omega
      have hbefore : ({ net.peer key with jobs := rest } : PeerState σ).logs =
          (net.peer key).logs := rfl
      rcases h.sync hagrees key env fuel job hbefore htarget with hsame | ⟨hlt, hcopied⟩
      · exact .same (fun height link => (hsame height link).trans
          (h.covers key height link).symm)
      · exact .copied rfl hlt hcopied
  | @pins env fuel pinsLink peerIds rest haction' hjobs =>
      obtain ⟨hashes, hfetched⟩ := fetched_downloadPins env pinsLink peerIds
        { net.peer key with jobs := rest }
      apply LogChange.same
      rw [hfetched.logs]
      exact fun _ _ => Iff.rfl

/-! ## The simulation -/

omit [LawfulPrimitives] [LawfulBucketLogProvider σ] [RootedBucketLogProvider σ] in
theorem Replicates.copied {state : ReplicatedHistory PublicKey Link}
    (h : net.Replicates id writer state)
    (hall : ∀ key, LogChange id writer net state action key ((net.step action).peer key).logs)
    {reader : PublicKey} {env : PeerEnv} {fuel : ℕ} (haction : action = .work reader env fuel)
    (hbehind : state.known reader < state.history.length)
    (hcovers : Covers (Logged ((net.step action).peer reader).logs id) state.history
      (state.known reader + 1)) :
    (net.step action).Replicates id writer (state.run [.copy reader]) := by
  have hne : reader ≠ writer := by
    rintro rfl
    rw [h.writer] at hbehind
    omega
  refine ⟨h.sound.run _, ?_, fun key => ?_⟩
  · change (state.step (.copy reader)).known writer = (state.step (.copy reader)).history.length
    rw [ReplicatedHistory.known_step_copy, ReplicatedHistory.history_step_copy, h.writer]
    simp [hne]
  · change Covers _ (state.step (.copy reader)).history ((state.step (.copy reader)).known key)
    rw [ReplicatedHistory.known_step_copy, ReplicatedHistory.history_step_copy]
    by_cases hkey : reader = key
    · subst hkey
      rw [if_pos ⟨rfl, hbehind⟩]
      exact hcovers
    · rw [if_neg (fun hboth => hkey hboth.1)]
      cases hall key with
      | same hsame => exact (h.covers key).congr hsame
      | copied haction' _ _ =>
          rw [haction] at haction'
          exact absurd (NetworkAction.work.inj haction').1 hkey
      | published haction' _ _ =>
          rw [haction] at haction'
          contradiction

omit [LawfulPrimitives] [LawfulBucketLogProvider σ] [RootedBucketLogProvider σ] in
theorem Replicates.published {state : ReplicatedHistory PublicKey Link}
    (h : net.Replicates id writer state)
    (hall : ∀ key, LogChange id writer net state action key ((net.step action).peer key).logs)
    {local' : PeerAction} (haction : action = .act writer local') {link : Link}
    (hgains : GainsNext (net.peer writer).logs ((net.step action).peer writer).logs id
      state.history.length link) :
    (net.step action).Replicates id writer (state.run [.publish link, .copy writer]) := by
  have hbehind : state.known writer < (state.history ++ [link]).length := by
    rw [h.writer]
    simp
  have hhistory : (state.run [.publish link, .copy writer]).history =
      state.history ++ [link] := by
    change ((state.step (.publish link)).step (.copy writer)).history = _
    rw [ReplicatedHistory.history_step_copy, ReplicatedHistory.step_publish]
  have hknown : ∀ key, (state.run [.publish link, .copy writer]).known key =
      if writer = key then state.known key + 1 else state.known key := by
    intro key
    change ((state.step (.publish link)).step (.copy writer)).known key = _
    rw [ReplicatedHistory.known_step_copy, ReplicatedHistory.step_publish]
    by_cases hkey : writer = key
    · subst hkey
      simp only [true_and, if_pos hbehind, if_true]
    · simp [hkey]
  refine ⟨h.sound.run _, ?_, fun key => ?_⟩
  · rw [hhistory, hknown, if_pos rfl, h.writer]
    simp
  · rw [hhistory, hknown]
    split_ifs with hkey
    · subst hkey
      have hcovers := h.covers writer
      rw [h.writer] at hcovers ⊢
      have hextended := hcovers.extend hgains.gains
      rw [List.length_append, List.length_singleton] at hextended
      exact hextended
    · cases hall key with
      | same hsame => exact ((h.covers key).publish (h.sound key) link).congr hsame
      | copied haction' _ _ =>
          rw [haction] at haction'
          contradiction
      | published haction' _ _ =>
          rw [haction] at haction'
          exact absurd (NetworkAction.act.inj haction').1 hkey

/-- One step of the network is some steps of the replicated history, of which a reader
copies in a turn of its worker only. -/
theorem Replicates.step {state : ReplicatedHistory PublicKey Link}
    (h : net.Replicates id writer state) (hagrees : Agrees (net.peer writer))
    (hclaims : net.ClaimsLogged) (haction : net.OneWriter id writer action) :
    ∃ events, (net.step action).Replicates id writer (state.run events) ∧
      ∀ reader, reader ≠ writer →
        ReplicatedHistory.copies reader events ≤ turns reader [action] := by
  have hall : ∀ key, LogChange id writer net state action key
      ((net.step action).peer key).logs :=
    fun key => (peerChange_step net action key).logChange h hagrees hclaims haction
  by_cases hsame : ∀ key height link, Logged ((net.step action).peer key).logs id height link ↔
      Logged (net.peer key).logs id height link
  · exact ⟨[], ⟨h.sound, h.writer, fun key => (h.covers key).congr (hsame key)⟩,
      fun _ _ => Nat.zero_le _⟩
  · obtain ⟨key, hchanged⟩ := not_forall.mp hsame
    cases hall key with
    | same hkept => exact absurd hkept hchanged
    | @copied env fuel haction' hbehind hcovers =>
        refine ⟨_, h.copied hall haction' hbehind hcovers, ?_⟩
        intro reader _
        subst haction'
        simp [ReplicatedHistory.copies, turns]
    | @published local' haction' hkey link hgains =>
        subst hkey
        refine ⟨_, h.published hall haction' hgains, ?_⟩
        intro reader hreader
        simp [ReplicatedHistory.copies, Ne.symm hreader]

theorem Replicates.run {state : ReplicatedHistory PublicKey Link}
    (h : net.Replicates id writer state) (hagrees : ∀ key, Agrees (net.peer key))
    (hclaims : net.ClaimsLogged) {actions : List NetworkAction}
    (hactions : AlongRun Network.step (OneWriter id writer) net actions) :
    ∃ events, (net.run actions).Replicates id writer (state.run events) ∧
      ∀ reader, reader ≠ writer →
        ReplicatedHistory.copies reader events ≤ turns reader actions := by
  induction actions generalizing net state with
  | nil => exact ⟨[], h, fun _ _ => Nat.zero_le _⟩
  | cons action rest ih =>
      obtain ⟨events, hstep, hturns⟩ := h.step (hagrees writer) hclaims hactions.1
      have hagrees' : ∀ key, Agrees ((net.step action).peer key) := by
        intro key
        obtain ⟨source, hextends⟩ := net.logExtends_step action key
        exact (hagrees key).extends hextends
      obtain ⟨later, hrun, hturns'⟩ := ih hstep hagrees' (hclaims.step action) hactions.2
      refine ⟨events ++ later, ?_, fun reader hreader => ?_⟩
      · rw [ReplicatedHistory.run_append]
        exact hrun
      · have hfirst := hturns reader hreader
        have hlater := hturns' reader hreader
        rw [ReplicatedHistory.copies_append, turns_cons]
        omega

section

variable (worlds : PublicKey → World) (logs : PublicKey → σ)
  (hempty : ∀ key id height link, ¬ Logged (logs key) id height link)

include hempty

omit [LawfulPrimitives] [LawfulBucketLogProvider σ] [RootedBucketLogProvider σ] in
theorem replicates_start (id : Uuid) (writer : PublicKey) :
    (start worlds logs).Replicates id writer ⟨[], fun _ => 0⟩ :=
  ⟨fun _ => Nat.zero_le _, rfl, fun key => ReplicatedHistory.covers_empty (hempty key id) []⟩

theorem exists_replicates (id : Uuid) (writer : PublicKey) {actions : List NetworkAction}
    (h : AlongRun Network.step (OneWriter id writer) (start worlds logs) actions) :
    ∃ events, ((start worlds logs).run actions).Replicates id writer
        (ReplicatedHistory.run ⟨[], fun _ => 0⟩ events) ∧
      ∀ reader, reader ≠ writer →
        ReplicatedHistory.copies reader events ≤ turns reader actions :=
  (replicates_start worlds logs hempty id writer).run (agrees_peer_start worlds hempty)
    (claimsLogged_run worlds logs []) h

end

end Network

section

variable (worlds : PublicKey → World) (logs : PublicKey → σ)
  (hempty : ∀ key id height link, ¬ Logged (logs key) id height link)
  (id : Uuid) (writer : PublicKey) (actions : List NetworkAction)
  (hwriter : AlongRun Network.step (Network.OneWriter id writer)
    (Network.start worlds logs) actions)

include hempty hwriter

/-- A bucket with one writer, in any order of steps of any peers: the network refines a
history with readers, in which a save publishes the next version and a turn of a worker
copies at most one. -/
theorem one_writer_refines_history :
    ∃ events, ((Network.start worlds logs).run actions).Replicates id writer
        (ReplicatedHistory.run ⟨[], fun _ => 0⟩ events) ∧
      ∀ reader, reader ≠ writer →
        ReplicatedHistory.copies reader events ≤ Network.turns reader actions :=
  Network.exists_replicates worlds logs hempty id writer hwriter

/-- A version in the log of a reader is the one that the writer has at this height, as has
everyone else who has one there, and it took the worker of the reader a turn for it and for
every version below. -/
theorem reader_has_versions_of_writer (reader : PublicKey) (hreader : reader ≠ writer)
    (height : ℕ) (link : Link)
    (hlogged : Logged (((Network.start worlds logs).run actions).peer reader).logs id height
      link) :
    let net := (Network.start worlds logs).run actions
    Logged (net.peer writer).logs id height link ∧
      (∀ key other, Logged (net.peer key).logs id height other → other = link) ∧
      height + 1 ≤ Network.turns reader actions := by
  obtain ⟨events, hreplicates, hturns⟩ :=
    Network.exists_replicates worlds logs hempty id writer hwriter
  obtain ⟨hknown, hentry⟩ := (hreplicates.covers reader height link).mp hlogged
  refine ⟨?_, ?_, ?_⟩
  · refine (hreplicates.covers writer height link).mpr ⟨?_, hentry⟩
    have hsound := hreplicates.sound reader
    rw [hreplicates.writer]
    omega
  · intro key other hother
    exact (hreplicates.covers key).eq_of_entries (hreplicates.covers reader) hother hlogged
  · have hcopies := ReplicatedHistory.known_run_le
      (⟨[], fun _ => 0⟩ : ReplicatedHistory PublicKey Link) events reader
    have hbound := hturns reader hreader
    dsimp only at hcopies
    omega

/-- Who answers a ping, however late, with `InSync` has the version of the ping as its
head, and who answers with `Ahead` has it in its log. -/
theorem replies_tell_the_truth (initiator responder : PublicKey) (ping : PingMessage)
    (hid : ping.bucketId = id)
    (hping : Envelope.ping initiator responder ping ∈
      ((Network.start worlds logs).run actions).envelopes) :
    let peer := ((Network.start worlds logs).run actions).peer responder
    ((handleMessage peer ping).status = .inSync →
      head peer.logs id none = .ok (ping.link, ping.height)) ∧
    ∀ link height, (handleMessage peer ping).status = .ahead link height →
      head peer.logs id none = .ok (link, height) ∧ ping.height < height ∧
        Logged peer.logs id ping.height ping.link := by
  obtain ⟨events, hreplicates, -⟩ :=
    Network.exists_replicates worlds logs hempty id writer hwriter
  obtain ⟨teller, htold⟩ := (Network.claimsLogged_run worlds logs actions).envelopes _ hping
    id ping.link ping.height ⟨hid, rfl, rfl⟩
  generalize (Network.start worlds logs).run actions = net at *
  dsimp only
  have hentry := ((hreplicates.covers teller) _ _).mp htold
  unfold handleMessage
  rw [hid]
  cases hhead : head (net.peer responder).logs id none with
  | error error => simp
  | ok found =>
      obtain ⟨ourLink, ourHeight⟩ := found
      have hours := logged_of_head hhead
      dsimp only
      split_ifs with hbehind hequal
      · simp
      · refine ⟨fun _ => ?_, by simp⟩
        subst hequal
        have hsame := (hreplicates.covers responder).eq_of_entries (hreplicates.covers teller)
          hours htold
        rw [hsame]
      · refine ⟨by simp, fun link height hahead => ?_⟩
        obtain ⟨rfl, rfl⟩ := PingReplyStatus.ahead.inj hahead
        refine ⟨rfl, by omega, ((hreplicates.covers responder) _ _).mpr ⟨?_, hentry.2⟩⟩
        have hknown := (((hreplicates.covers responder) _ _).mp hours).1
        omega

end

end

end

namespace Reference

/-- Beside a log that has a genesis only, every mount may be saved. -/
theorem oneWriter_saveMount {net : Network MemoryBucketLogProvider} {id : Uuid}
    {key : PublicKey} (env : PeerEnv) (number : ℕ) (publish : Bool)
    (h : ((net.peer key).logs.inner.entries.get? id).map
      (fun bucket => bucket.toList.map Prod.fst) = some [0]) :
    net.OneWriter id key (.act key (.saveMount env number publish)) := by
  intro inner _ _
  exact ⟨rfl, fun below _ => MemoryBucketLogProvider.not_logged_of_heights h (by simp)⟩

theorem annSaves_heights :
    (((quiet.run (annSaves.take 3)).peer annKey).logs.inner.entries.get? ⟨7⟩).map
      (fun bucket => bucket.toList.map Prod.fst) = some [0] := by
  decide +kernel

theorem annCreates_oneWriter :
    quiet.OneWriter ⟨7⟩ annKey (.act annKey (.create annEnv ⟨7⟩ "docs".toList)) :=
  fun _ => ⟨rfl, MemoryBucketLogProvider.not_logged_new ⟨7⟩ 0⟩

/-- The bucket is created and saved once, on top of its genesis. -/
theorem syncedTwice_oneWriter :
    AlongRun Network.step (Network.OneWriter ⟨7⟩ annKey) quiet syncedTwice := by
  have hsave := oneWriter_saveMount annEnv 0 false annSaves_heights
  exact ⟨annCreates_oneWriter, trivial, trivial, hsave, trivial, trivial, trivial, trivial,
    trivial, trivial, trivial, trivial, trivial, trivial, trivial⟩

theorem syncedTwice_refines_history :
    ∃ events, (quiet.run syncedTwice).Replicates ⟨7⟩ annKey
        (ReplicatedHistory.run ⟨[], fun _ => 0⟩ events) ∧
      ∀ reader, reader ≠ annKey →
        ReplicatedHistory.copies reader events ≤ Network.turns reader syncedTwice :=
  one_writer_refines_history _ _ (fun _ => MemoryBucketLogProvider.not_logged_new) ⟨7⟩ annKey
    syncedTwice syncedTwice_oneWriter

theorem syncedTwice_reader_has_versions :
    ∃ link, Logged ((quiet.run syncedTwice).peer benKey).logs ⟨7⟩ 1 link ∧
      Logged ((quiet.run syncedTwice).peer annKey).logs ⟨7⟩ 1 link ∧
      2 ≤ Network.turns benKey syncedTwice := by
  have hversions := reader_has_versions_of_writer _ _
    (fun _ => MemoryBucketLogProvider.not_logged_new) ⟨7⟩ annKey syncedTwice
    syncedTwice_oneWriter benKey (by decide) 1
  have hlinks := syncedTwice_links
  unfold quiet at hlinks ⊢
  generalize (Network.start (fun _ => emptyWorld)
    (fun _ => MemoryBucketLogProvider.new)).run syncedTwice = net at *
  obtain ⟨hlength, hsame⟩ := hlinks
  obtain ⟨link, hlink⟩ := List.length_eq_one_iff.mp hlength
  have hben : Logged (net.peer benKey).logs ⟨7⟩ 1 link := by
    rw [MemoryBucketLogProvider.logged_iff, hsame, hlink]
    exact List.mem_singleton_self link
  obtain ⟨hann, -, hturns⟩ := hversions link hben
  exact ⟨link, hben, hann, hturns⟩

theorem syncedTwice_pings :
    (quiet.run syncedTwice).envelopes.any (fun envelope => match envelope with
      | .ping _ _ ping => decide (ping.bucketId = ⟨7⟩)
      | _ => false) = true := by
  decide +kernel

theorem syncedTwice_replies_tell_the_truth :
    ∃ initiator responder ping,
      Envelope.ping initiator responder ping ∈ (quiet.run syncedTwice).envelopes ∧
      let peer := (quiet.run syncedTwice).peer responder
      ((handleMessage peer ping).status = .inSync →
        head peer.logs ⟨7⟩ none = .ok (ping.link, ping.height)) := by
  obtain ⟨envelope, hmem, hbucket⟩ := List.any_eq_true.mp syncedTwice_pings
  cases envelope with
  | ping initiator responder ping =>
      have htruth := replies_tell_the_truth _ _
        (fun _ => MemoryBucketLogProvider.not_logged_new) ⟨7⟩ annKey syncedTwice
        syncedTwice_oneWriter initiator responder ping (by simpa using hbucket) hmem
      exact ⟨initiator, responder, ping, hmem, htruth.1⟩
  | pong initiator responder pong => exact absurd hbucket (by simp)
  | answered initiator responder ping pong => exact absurd hbucket (by simp)

end Reference

end JaxFs

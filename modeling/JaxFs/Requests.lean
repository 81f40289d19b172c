import JaxFs.LogTable

/-!
# Requests against the SQLite log

A request loads the head of a bucket, changes its own mount and saves it.  Requests
interleave between the statements of the log: the query for the greatest height, the one
for the links there, the look at the previous link, the insertion.  Loads, operations and
the writing of a version touch the mount of the request and a store that only grows, and
are one step each.  A request may stop with an error at any point.
-/

namespace JaxFs

open BucketLogProvider

theorem getElem?_later {links links' : List Link} (h : links <+: links') {n : ℕ}
    {link : Link} (hlink : links[n]? = some link) : links'[n]? = some link := by
  obtain ⟨later, rfl⟩ := h
  rw [List.getElem?_append_left (List.getElem?_eq_some_iff.mp hlink).1]
  exact hlink

theorem head_of_heads_error {σ : Type} [BucketLogProvider σ] {log : σ} {id : Uuid} {top : ℕ}
    {error : BucketLogError} (hheight : height log id = .ok top)
    (hheads : heads log id top = .error error) : head log id none = .error error := by
  simp [head, hheight, hheads, bind, Except.bind]

theorem head_of_heads_ok {σ : Type} [BucketLogProvider σ] {log : σ} {id : Uuid} {top : ℕ}
    {links : List Link} (hheight : height log id = .ok top)
    (hheads : heads log id top = .ok links) :
    head log id none =
      match links.maximum with
      | some link => .ok (link, top)
      | none => .error (.headNotFound top) := by
  simp only [head, hheight, bind, Except.bind, Option.getD_none, hheads]
  rfl

section

variable [P : Primitives]

/-! ## The system -/

/-- Where a request is: the last statement it has executed, with what it then holds. -/
inductive Phase where
  | arrived
  | height (top : ℕ)
  | head (link : Link)
  | mounted (inner : MountInner)
  | saved (name : Name) (entry : LogEntry) (inner : MountInner)
  | checked (name : Name) (entry : LogEntry) (inner : MountInner)
  | logged (entry : LogEntry) (inner : MountInner)
  | returned (result : Except Fault Link)

structure Request where
  env : PeerEnv
  publish : Bool
  phase : Phase

inductive RequestStep where
  | advance
  | operate (action : MountAction)
  | stop (fault : Fault)

inductive RequestAction where
  | arrive (env : PeerEnv) (publish : Bool)
  | act (request : ℕ) (step : RequestStep)

def headFault (error : BucketLogError) : Fault :=
  .error (.default ("Failed to get current head: " ++ error.message))

def appendFault (error : BucketLogError) : Fault :=
  .error (.default ("Failed to append to log: " ++ error.message))

namespace Request

/-- The next statement: `Peer::mount` up to `mounted`, then `Peer::save_mount`. -/
def advance (request : Request) (bucketId : Uuid) (peer : PeerState LogTable) :
    PeerState LogTable × Phase :=
  match request.phase with
  | .arrived =>
      match height peer.logs bucketId with
      | .ok top => (peer, .height top)
      | .error error => (peer, .returned (.error (headFault error)))
  | .height top =>
      match heads peer.logs bucketId top with
      | .ok links =>
          match links.maximum with
          | some link => (peer, .head link)
          | none => (peer, .returned (.error (headFault (.headNotFound top))))
      | .error error => (peer, .returned (.error (headFault error)))
  | .head link =>
      match load peer.world.blobs link request.env.secretKey with
      | .ok inner => (peer, .mounted inner)
      | .error fault => (peer, .returned (.error fault))
  | .mounted inner =>
      match (onMount (save request.publish)).run ⟨peer, inner⟩ with
      | .ok (link, previousLink, height) state =>
          (state.peer, .saved inner.manifest.name ⟨inner.manifest.id, link,
            some previousLink, height, state.inner.manifest.isPublished⟩ state.inner)
      | .error fault state => (state.peer, .returned (.error fault))
  | .saved name entry inner =>
      match peer.logs.db.appendError entry.bucketId entry.link entry.previous
          entry.height with
      | none => (peer, .checked name entry inner)
      | some error => (peer, .returned (.error (appendFault error)))
  | .checked name entry inner =>
      match peer.logs.insert ⟨entry.bucketId, name, entry.link, entry.previous,
          toI64 entry.height, entry.published⟩ with
      | (.ok (), logs) => ({ peer with logs := logs }, .logged entry inner)
      | (.error error, logs) =>
          ({ peer with logs := logs }, .returned (.error (appendFault error)))
  | .logged entry inner =>
      match (pingShares request.env entry.bucketId
          (inner.manifest.shares.toList.map Prod.fst)).run ⟨peer, inner⟩ with
      | .ok _ state => (state.peer, .returned (.ok entry.link))
      | .error fault state => (state.peer, .returned (.error fault))
  | .returned result => (peer, .returned result)

/-- The operations on the mount are those that do not make a version. -/
def act (request : Request) (bucketId : Uuid) (peer : PeerState LogTable) :
    RequestStep → PeerState LogTable × Phase
  | .advance => request.advance bucketId peer
  | .operate (.save _) => (peer, request.phase)
  | .operate action =>
      match request.phase with
      | .mounted inner =>
          let state := ((onMount action.run).run ⟨peer, inner⟩).state
          (state.peer, .mounted state.inner)
      | phase => (peer, phase)
  | .stop fault =>
      match request.phase with
      | .returned result => (peer, .returned result)
      | _ => (peer, .returned (.error fault))

end Request

structure RequestSystem where
  peer : PeerState LogTable
  requests : List Request

namespace RequestSystem

def start (peer : PeerState LogTable) : RequestSystem := ⟨peer, []⟩

def step (bucketId : Uuid) (system : RequestSystem) : RequestAction → RequestSystem
  | .arrive env publish =>
      { system with requests := system.requests ++ [⟨env, publish, .arrived⟩] }
  | .act index step =>
      match system.requests[index]? with
      | none => system
      | some request =>
          let (peer, phase) := request.act bucketId system.peer step
          ⟨peer, system.requests.set index { request with phase := phase }⟩

def run (bucketId : Uuid) (system : RequestSystem) (actions : List RequestAction) :
    RequestSystem :=
  actions.foldl (step bucketId) system

end RequestSystem

/-! ## A request on its own -/

/-- The outcome of a call as the end of a request. -/
def Phase.ofResult {σ : Type} : EStateM.Result Fault σ Link → Phase
  | .ok link _ => .returned (.ok link)
  | .error fault _ => .returned (.error fault)

namespace Request

def advances (bucketId : Uuid) : ℕ → PeerState LogTable × Request →
    PeerState LogTable × Request
  | 0, state => state
  | n + 1, (peer, request) =>
      let (peer', phase) := request.advance bucketId peer
      advances bucketId n (peer', { request with phase := phase })

theorem advances_returned (bucketId : Uuid) (n : ℕ) (peer : PeerState LogTable) (env : PeerEnv)
    (publish : Bool) (result : Except Fault Link) :
    advances bucketId n (peer, ⟨env, publish, .returned result⟩) =
      (peer, ⟨env, publish, .returned result⟩) := by
  induction n with
  | zero => rfl
  | succ n ih => exact ih

theorem advances_succ {bucketId : Uuid} {n : ℕ} {peer peer' : PeerState LogTable}
    {env : PeerEnv} {publish : Bool} {phase phase' : Phase}
    (h : (⟨env, publish, phase⟩ : Request).advance bucketId peer = (peer', phase')) :
    advances bucketId (n + 1) (peer, ⟨env, publish, phase⟩) =
      advances bucketId n (peer', ⟨env, publish, phase'⟩) := by
  rw [advances, h]

/-- The first three statements are `Peer::mount`. -/
theorem advances_mountHead (bucketId : Uuid) (peer : PeerState LogTable) (env : PeerEnv)
    (publish : Bool) :
    advances bucketId 3 (peer, ⟨env, publish, .arrived⟩) =
      (peer, ⟨env, publish,
        match peer.mountHead env bucketId with
        | .ok inner => .mounted inner
        | .error fault => .returned (.error fault)⟩) := by
  unfold PeerState.mountHead
  cases hheight : height peer.logs bucketId with
  | error error =>
      have hfailed : (⟨env, publish, .arrived⟩ : Request).advance bucketId peer =
          (peer, .returned (.error (headFault error))) := by
        simp only [advance, hheight]
      rw [advances_succ hfailed, advances_returned, head_of_height_error hheight]
      rfl
  | ok top =>
      have htop : (⟨env, publish, .arrived⟩ : Request).advance bucketId peer =
          (peer, .height top) := by
        simp only [advance, hheight]
      rw [advances_succ htop]
      cases hheads : heads peer.logs bucketId top with
      | error error =>
          have hfailed : (⟨env, publish, .height top⟩ : Request).advance bucketId peer =
              (peer, .returned (.error (headFault error))) := by
            simp only [advance, hheads]
          rw [advances_succ hfailed, advances_returned, head_of_heads_error hheight hheads]
          rfl
      | ok links =>
          rw [head_of_heads_ok hheight hheads]
          cases hmax : links.maximum with
          | bot =>
              have hfailed : (⟨env, publish, .height top⟩ : Request).advance bucketId peer =
                  (peer, .returned (.error (headFault (.headNotFound top)))) := by
                simp only [advance, hheads, hmax]
              rw [advances_succ hfailed, advances_returned]
              rfl
          | coe link =>
              have hlink : (⟨env, publish, .height top⟩ : Request).advance bucketId peer =
                  (peer, .head link) := by
                simp only [advance, hheads, hmax]
              have hload : (⟨env, publish, .head link⟩ : Request).advance bucketId peer =
                  (peer, match load peer.world.blobs link env.secretKey with
                    | .ok inner => .mounted inner
                    | .error fault => .returned (.error fault)) := by
                simp only [advance]
                cases load peer.world.blobs link env.secretKey <;> rfl
              rw [advances_succ hlink, advances_succ hload]
              rfl

/-- The last statement sends the pings. -/
theorem advances_logged (bucketId : Uuid) (peer : PeerState LogTable) (env : PeerEnv)
    (publish : Bool) (entry : LogEntry) (inner : MountInner) :
    let result := (do
      pingShares env entry.bucketId (inner.manifest.shares.toList.map Prod.fst)
      pure entry.link : PeerM LogTable Link).run ⟨peer, inner⟩
    advances bucketId 1 (peer, ⟨env, publish, .logged entry inner⟩) =
      (result.state.peer, ⟨env, publish, Phase.ofResult result⟩) := by
  intro result
  cases hping : (pingShares env entry.bucketId
      (inner.manifest.shares.toList.map Prod.fst)).run
      (⟨peer, inner⟩ : PeerMount LogTable) with
  | ok _ state =>
      have hreturned : (⟨env, publish, .logged entry inner⟩ : Request).advance bucketId peer =
          (state.peer, .returned (.ok entry.link)) := by
        simp only [advance, hping]
      have hresult : result = _ := EStateM.run_bind_of_ok hping
      rw [advances_succ hreturned, hresult]
      rfl
  | error fault state =>
      have hfailed : (⟨env, publish, .logged entry inner⟩ : Request).advance bucketId peer =
          (state.peer, .returned (.error fault)) := by
        simp only [advance, hping]
      have hresult : result = _ := EStateM.run_bind_of_error hping
      rw [advances_succ hfailed, hresult]
      rfl

/-- The look at the previous link and the insertion are the append. -/
theorem advances_append (bucketId : Uuid) (peer : PeerState LogTable) (env : PeerEnv)
    (publish : Bool) (id : Uuid) (name : Name) (link previousLink : Link) (height : ℕ)
    (isPublished : Bool) (inner : MountInner) :
    let result := (do
      appendVersion id name link previousLink height isPublished
      pingShares env id (inner.manifest.shares.toList.map Prod.fst)
      pure link : PeerM LogTable Link).run ⟨peer, inner⟩
    advances bucketId 3 (peer, ⟨env, publish,
        .saved name ⟨id, link, some previousLink, height, isPublished⟩ inner⟩) =
      (result.state.peer, ⟨env, publish, Phase.ofResult result⟩) := by
  intro result
  have happend := LogTable.append_eq peer.logs id name link (some previousLink) height
    isPublished
  obtain ⟨logs, hcases⟩ := appendVersion_cases id name link previousLink height isPublished
    (⟨peer, inner⟩ : PeerMount LogTable)
  cases hcheck : peer.logs.db.appendError id link (some previousLink) height with
  | some error =>
      rw [hcheck] at happend
      have hrefused : (⟨env, publish, .saved name
          ⟨id, link, some previousLink, height, isPublished⟩ inner⟩ : Request).advance bucketId
            peer = (peer, .returned (.error (appendFault error))) := by
        simp only [advance, hcheck]
      rw [advances_succ hrefused, advances_returned]
      rcases hcases with ⟨hverdict, -⟩ | ⟨found, hverdict, hrun⟩
      · rw [happend] at hverdict
        simp at hverdict
      · rw [happend] at hverdict
        cases hverdict
        have hresult : result = _ := EStateM.run_bind_of_error hrun
        rw [hresult]
        rfl
  | none =>
      rw [hcheck] at happend
      have hchecked : (⟨env, publish, .saved name
          ⟨id, link, some previousLink, height, isPublished⟩ inner⟩ : Request).advance bucketId
            peer = (peer, .checked name ⟨id, link, some previousLink, height, isPublished⟩
              inner) := by
        simp only [advance, hcheck]
      rw [advances_succ hchecked]
      dsimp only at happend
      rcases hcases with ⟨hverdict, hrun⟩ | ⟨found, hverdict, hrun⟩
      · rw [happend] at hverdict
        have hinserted : (⟨env, publish, .checked name
            ⟨id, link, some previousLink, height, isPublished⟩ inner⟩ : Request).advance
              bucketId peer = ({ peer with logs := logs },
                .logged ⟨id, link, some previousLink, height, isPublished⟩ inner) := by
          simp only [advance, hverdict]
        have hresult : result = _ := EStateM.run_bind_of_ok hrun
        rw [advances_succ hinserted, hresult]
        exact advances_logged bucketId { peer with logs := logs } env publish
          ⟨id, link, some previousLink, height, isPublished⟩ inner
      · rw [happend] at hverdict
        have hrefused : (⟨env, publish, .checked name
            ⟨id, link, some previousLink, height, isPublished⟩ inner⟩ : Request).advance
              bucketId peer = ({ peer with logs := logs },
                .returned (.error (appendFault found))) := by
          simp only [advance, hverdict]
        rw [advances_succ hrefused, advances_returned]
        have hresult : result = _ := EStateM.run_bind_of_error hrun
        rw [hresult]
        rfl

/-- The last four statements are `Peer::save_mount`. -/
theorem advances_saveMount (bucketId : Uuid) (peer : PeerState LogTable) (env : PeerEnv)
    (publish : Bool) (inner : MountInner) :
    advances bucketId 4 (peer, ⟨env, publish, .mounted inner⟩) =
      (((saveMount env publish).run ⟨peer, inner⟩).state.peer,
        ⟨env, publish, Phase.ofResult ((saveMount env publish).run ⟨peer, inner⟩)⟩) := by
  cases hsave : (save publish).run ⟨peer.world, inner⟩ with
  | error fault mount =>
      have hwrite : (onMount (save publish)).run (⟨peer, inner⟩ : PeerMount LogTable) =
          .error fault ⟨{ peer with world := mount.world }, mount.inner⟩ :=
        run_onMount_of_error hsave
      have hfailed : (⟨env, publish, .mounted inner⟩ : Request).advance bucketId peer =
          ({ peer with world := mount.world }, .returned (.error fault)) := by
        simp only [advance, hwrite]
      rw [advances_succ hfailed, advances_returned]
      unfold saveMount
      rw [run_getPeer_bind, EStateM.run_bind_of_error hwrite]
      rfl
  | ok result mount =>
      obtain ⟨link, previousLink, height⟩ := result
      have hwrite : (onMount (save publish)).run (⟨peer, inner⟩ : PeerMount LogTable) =
          .ok (link, previousLink, height) ⟨{ peer with world := mount.world }, mount.inner⟩ :=
        run_onMount_of_ok hsave
      have hsaved : (⟨env, publish, .mounted inner⟩ : Request).advance bucketId peer =
          ({ peer with world := mount.world }, .saved inner.manifest.name
            ⟨inner.manifest.id, link, some previousLink, height,
              mount.inner.manifest.isPublished⟩ mount.inner) := by
        simp only [advance, hwrite]
      have hprogram := @run_saveMount_of_save _ _ _ env publish ⟨peer, inner⟩ _ _ _ _ hsave
      rw [advances_succ hsaved, hprogram]
      exact advances_append bucketId _ env publish _ _ _ _ _ _ mount.inner

end Request

/-! ## Requests on a chain -/

/-- A stored version of the bucket on top of one of the chain. -/
def LogEntry.OnTop (entry : LogEntry) (blobs : Blobs) (id : Uuid) (links : List Link) : Prop :=
  entry.bucketId = id ∧ ∃ below previous manifest, links[below]? = some previous ∧
    entry.height = below + 1 ∧ entry.previous = some previous ∧
    getManifestFromBlobs blobs entry.link = .ok manifest ∧ manifest.id = id ∧
    manifest.height = below + 1 ∧ manifest.previous = some previous

/-- What a request holds comes from the chain. -/
def Phase.Follows (blobs : Blobs) (id : Uuid) (links : List Link) : Phase → Prop
  | .arrived => True
  | .height _ => True
  | .head link => link ∈ links
  | .mounted inner => inner.manifest.id = id ∧ links[inner.height]? = some inner.link
  | .saved _ entry _ => entry.OnTop blobs id links
  | .checked _ entry _ => entry.OnTop blobs id links
  | .logged entry _ => entry.link ∈ links
  | .returned (.ok link) => link ∈ links
  | .returned (.error _) => True

theorem Phase.Follows.mono {world world' : World} {id : Uuid} {links links' : List Link}
    {phase : Phase} (h : phase.Follows world.blobs id links) (hgrows : Grows world world')
    (hlater : links <+: links') : phase.Follows world'.blobs id links' := by
  have hentry : ∀ entry : LogEntry, entry.OnTop world.blobs id links →
      entry.OnTop world'.blobs id links' := by
    rintro entry ⟨hid, below, previous, manifest, hlink, hheight, hprevious, hread, hrest⟩
    exact ⟨hid, below, previous, manifest, getElem?_later hlater hlink, hheight,
      hprevious, hgrows.getManifestFromBlobs hread, hrest⟩
  cases phase with
  | arrived => trivial
  | height top => trivial
  | head link => exact hlater.subset h
  | mounted inner => exact ⟨h.1, getElem?_later hlater h.2⟩
  | saved name entry inner => exact hentry entry h
  | checked name entry inner => exact hentry entry h
  | logged entry inner => exact hlater.subset h
  | returned result =>
      cases result with
      | ok link => exact hlater.subset h
      | error fault => trivial

/-- The chain is what it was or has more versions, and the request follows it. -/
def Continues (peer : PeerState LogTable) (id : Uuid) (links : List Link)
    (result : PeerState LogTable × Phase) : Prop :=
  ∃ later, SingleChain result.1 id (links ++ later) ∧
    result.2.Follows result.1.world.blobs id (links ++ later) ∧
    Grows peer.world result.1.world

section

variable {peer : PeerState LogTable} {id : Uuid} {links : List Link} {request : Request}

theorem Continues.of_grows (hchain : SingleChain peer id links)
    {result : PeerState LogTable × Phase} (hgrows : Grows peer.world result.1.world)
    (hlogs : result.1.logs = peer.logs)
    (hphase : result.2.Follows result.1.world.blobs id links) :
    Continues peer id links result := by
  refine ⟨[], ?_, ?_, hgrows⟩
  · rw [List.append_nil]
    exact (hchain.of_grows hgrows).of_jobs_eq rfl hlogs
  · rw [List.append_nil]
    exact hphase

theorem Continues.of_peer_eq (hchain : SingleChain peer id links) {phase : Phase}
    (hphase : phase.Follows peer.world.blobs id links) :
    Continues peer id links (peer, phase) :=
  Continues.of_grows hchain (Grows.refl _) rfl hphase

theorem grows_of_eq {world world' : World} (h : world' = world) : Grows world world' :=
  h ▸ Grows.refl world

/-- A mount of a version of the chain. -/
theorem SingleChain.follows_load (h : SingleChain peer id links) {link : Link}
    (hlink : link ∈ links) {secretKey : SecretKey} {inner : MountInner}
    (hload : load peer.world.blobs link secretKey = .ok inner) :
    (Phase.mounted inner).Follows peer.world.blobs id links := by
  obtain ⟨n, hn⟩ := List.mem_iff_getElem?.mp hlink
  obtain ⟨found, hread, hid, hheight, -⟩ := h.manifests n link hn
  obtain ⟨manifest, secret, pins, entry, opsLog, hmanifest, -, -, -, -, rfl⟩ :=
    load_eq_ok_iff.mp hload
  rw [hmanifest] at hread
  cases hread
  refine ⟨hid, ?_⟩
  dsimp only
  rw [hheight]
  exact hn

variable [LawfulPrimitives]

theorem follows_save {inner : MountInner} {publish : Bool} {link previousLink : Link}
    {height : ℕ} {mount : MountState}
    (hfollows : (Phase.mounted inner).Follows peer.world.blobs id links)
    (hsave : (save publish).run ⟨peer.world, inner⟩ = .ok (link, previousLink, height) mount) :
    LogEntry.OnTop ⟨inner.manifest.id, link, some previousLink, height,
      mount.inner.manifest.isPublished⟩ mount.world.blobs id links := by
  obtain ⟨-, hread, hid, hprevious, hheight⟩ := manifest_of_save hsave
  obtain ⟨manifest, world', -, hresult, -⟩ := run_save_eq_ok hsave
  obtain ⟨hprev, hh⟩ := Prod.mk.inj hresult
  dsimp only at hprev hh
  subst hprev hh
  exact ⟨hfollows.1, inner.height, inner.link, mount.inner.manifest, hfollows.2, rfl, rfl,
    hread, hid.trans hfollows.1, hheight, hprevious⟩

/-- Every statement of a request that follows the chain continues it. -/
theorem continues_advance (hchain : SingleChain peer id links)
    (hfollows : request.phase.Follows peer.world.blobs id links) :
    Continues peer id links (request.advance id peer) := by
  unfold Request.advance
  cases hphase : request.phase with
  | arrived =>
      dsimp only
      cases height peer.logs id with
      | ok top => exact Continues.of_peer_eq hchain trivial
      | error error => exact Continues.of_peer_eq hchain trivial
  | height top =>
      dsimp only
      cases hheads : heads peer.logs id top with
      | error error => exact Continues.of_peer_eq hchain trivial
      | ok found =>
          dsimp only
          cases hmax : found.maximum with
          | bot => exact Continues.of_peer_eq hchain trivial
          | coe link =>
              have hlink : link ∈ found := List.maximum_mem hmax
              exact Continues.of_peer_eq hchain (hchain.mem_of_heads hheads hlink)
  | head link =>
      rw [hphase] at hfollows
      dsimp only
      cases hload : load peer.world.blobs link request.env.secretKey with
      | error fault => exact Continues.of_peer_eq hchain trivial
      | ok inner => exact Continues.of_peer_eq hchain (hchain.follows_load hfollows hload)
  | mounted inner =>
      rw [hphase] at hfollows
      dsimp only
      cases hsave : (save request.publish).run ⟨peer.world, inner⟩ with
      | error fault mount =>
          obtain ⟨world', hgrows, rfl⟩ := run_save_eq_error hsave
          rw [run_onMount_of_error hsave]
          exact Continues.of_grows hchain hgrows rfl trivial
      | ok result mount =>
          obtain ⟨link, previousLink, height⟩ := result
          rw [run_onMount_of_ok hsave]
          exact Continues.of_grows hchain (manifest_of_save hsave).1 rfl
            (follows_save hfollows hsave)
  | saved name entry inner =>
      rw [hphase] at hfollows
      dsimp only
      cases peer.logs.db.appendError entry.bucketId entry.link entry.previous
          entry.height with
      | none => exact Continues.of_peer_eq hchain hfollows
      | some error => exact Continues.of_peer_eq hchain trivial
  | checked name entry inner =>
      rw [hphase] at hfollows
      obtain ⟨hid, below, previous, manifest, hlink, hheight, hprevious, hread, hmanifestId,
        hmanifestHeight, hmanifestPrevious⟩ := hfollows
      dsimp only
      cases hinsert : peer.logs.insert ⟨entry.bucketId, name, entry.link, entry.previous,
          toI64 entry.height, entry.published⟩ with
      | mk verdict logs =>
          cases verdict with
          | error error =>
              rw [LogTable.insert_eq_error hinsert]
              exact Continues.of_peer_eq hchain trivial
          | ok _ =>
              rw [hheight] at hinsert
              have hnext := hchain.insert hinsert hlink hid (by simp only) hprevious hread
                hmanifestId hmanifestHeight hmanifestPrevious
              refine ⟨[entry.link], hnext, ?_, Grows.refl _⟩
              exact List.mem_append_right _ (List.mem_singleton_self _)
  | logged entry inner =>
      rw [hphase] at hfollows
      dsimp only
      have hmount := sameMount_pingShares request.env entry.bucketId
        (inner.manifest.shares.toList.map Prod.fst) (⟨peer, inner⟩ : PeerMount LogTable)
      have hlogs := logs_pingShares request.env entry.bucketId
        (inner.manifest.shares.toList.map Prod.fst) (⟨peer, inner⟩ : PeerMount LogTable)
      have hworld := congrArg MountState.world hmount
      cases hping : (pingShares request.env entry.bucketId
          (inner.manifest.shares.toList.map Prod.fst)).run ⟨peer, inner⟩ with
      | error fault state =>
          rw [hping] at hworld hlogs
          exact Continues.of_grows hchain (grows_of_eq hworld) hlogs trivial
      | ok _ state =>
          rw [hping] at hworld hlogs
          exact Continues.of_grows hchain (grows_of_eq hworld) hlogs hfollows
  | returned result =>
      rw [hphase] at hfollows
      exact Continues.of_peer_eq hchain hfollows

/-- The mount is at the same version of the same bucket. -/
structure SameVersion (state state' : MountState) : Prop where
  link : state'.inner.link = state.inner.link
  height : state'.inner.height = state.inner.height
  id : state'.inner.manifest.id = state.inner.manifest.id

omit [LawfulPrimitives] in
theorem SameVersion.refl (state : MountState) : SameVersion state state := ⟨rfl, rfl, rfl⟩

omit [LawfulPrimitives] in
theorem SameVersion.trans (state state' state'' : MountState) (h : SameVersion state state')
    (h' : SameVersion state' state'') : SameVersion state state'' :=
  ⟨h'.link.trans h.link, h'.height.trans h.height, h'.id.trans h.id⟩

omit [LawfulPrimitives] in
theorem Records.sameVersion {α : Type} {x : MountM α} (h : Records x) :
    EStateM.Preserves SameVersion x := by
  intro state
  rcases h state with ⟨fault, state', hrun, hedited⟩ | ⟨a, state', opsLog, hrun, -, hedited⟩
  · rw [hrun]
    exact ⟨hedited.link, hedited.height, congrArg Manifest.id hedited.manifest⟩
  · rw [hrun]
    exact ⟨hedited.link, hedited.height, congrArg Manifest.id hedited.manifest⟩

theorem sameVersion_run {action : MountAction} (haction : ∀ publish, action ≠ .save publish) :
    EStateM.Preserves SameVersion action.run := by
  cases action with
  | add path data => exact (records_add path data).sameVersion
  | rm path => exact (records_rm path).sameVersion
  | mkdir path => exact (records_mkdir path).sameVersion
  | mv source target => exact (records_mv source target).sameVersion
  | addOwner peer =>
      have hshare : EStateM.Preserves SameVersion
          (onBlobs (newSecretShare Secret.default peer)) := by
        intro state
        rw [onBlobs, EStateM.run_zoom]
        cases (newSecretShare Secret.default peer).run state.world with
        | ok share world => exact ⟨rfl, rfl, rfl⟩
        | error fault world => exact ⟨rfl, rfl, rfl⟩
      apply hshare.bind SameVersion.trans
      exact fun share state => ⟨rfl, rfl, rfl⟩
  | addMirror peer => exact fun state => ⟨rfl, rfl, rfl⟩
  | save publish => exact absurd rfl (haction publish)

/-- An operation leaves the request at the version it has loaded. -/
theorem continues_operate (hchain : SingleChain peer id links) {inner : MountInner}
    (hfollows : (Phase.mounted inner).Follows peer.world.blobs id links)
    {action : MountAction} (haction : ∀ publish, action ≠ .save publish) :
    Continues peer id links
      (((onMount action.run).run ⟨peer, inner⟩).state.peer,
        .mounted ((onMount action.run).run ⟨peer, inner⟩).state.inner) := by
  have hgrows := mountGrows_run action ⟨peer.world, inner⟩
  have hversion := sameVersion_run haction ⟨peer.world, inner⟩
  cases hrun : action.run.run ⟨peer.world, inner⟩ with
  | error fault mount =>
      rw [hrun] at hgrows hversion
      rw [run_onMount_of_error hrun]
      refine Continues.of_grows hchain hgrows rfl ⟨hversion.id.trans hfollows.1, ?_⟩
      exact (congrArg₂ (fun n link => links[n]? = some link) hversion.height
        hversion.link).mpr hfollows.2
  | ok _ mount =>
      rw [hrun] at hgrows hversion
      rw [run_onMount_of_ok hrun]
      refine Continues.of_grows hchain hgrows rfl ⟨hversion.id.trans hfollows.1, ?_⟩
      exact (congrArg₂ (fun n link => links[n]? = some link) hversion.height
        hversion.link).mpr hfollows.2

theorem continues_act (hchain : SingleChain peer id links)
    (hfollows : request.phase.Follows peer.world.blobs id links) (step : RequestStep) :
    Continues peer id links (request.act id peer step) := by
  have hsame : Continues peer id links (peer, request.phase) :=
    Continues.of_peer_eq hchain hfollows
  cases step with
  | advance => exact continues_advance hchain hfollows
  | operate action =>
      by_cases hsave : ∃ publish, action = .save publish
      · obtain ⟨publish, rfl⟩ := hsave
        exact hsame
      · have haction : ∀ publish, action ≠ .save publish := fun publish heq =>
          hsave ⟨publish, heq⟩
        rw [Request.act]
        · cases hphase : request.phase with
          | mounted inner =>
              rw [hphase] at hfollows
              exact continues_operate hchain hfollows haction
          | _ =>
              rw [hphase] at hsame
              exact hsame
        · exact haction
  | stop fault =>
      rw [Request.act]
      cases hphase : request.phase with
      | returned result =>
          rw [hphase] at hsame
          exact hsame
      | _ => exact Continues.of_peer_eq hchain trivial

end

/-! ## Runs -/

namespace RequestSystem

/-- The versions form one chain, and every request follows it. -/
structure Chained (system : RequestSystem) (id : Uuid) (links : List Link) : Prop where
  chain : SingleChain system.peer id links
  follows : ∀ request ∈ system.requests,
    request.phase.Follows system.peer.world.blobs id links

variable [LawfulPrimitives] {system : RequestSystem} {id : Uuid} {links : List Link}

theorem Chained.step (h : system.Chained id links) (action : RequestAction) :
    ∃ later, (system.step id action).Chained id (links ++ later) := by
  have hsame : ∃ later, system.Chained id (links ++ later) :=
    ⟨[], (List.append_nil links).symm ▸ h⟩
  cases action with
  | arrive env publish =>
      refine ⟨[], ?_⟩
      rw [List.append_nil]
      refine ⟨h.chain, ?_⟩
      intro request hrequest
      rcases List.mem_append.mp hrequest with hold | hnew
      · exact h.follows request hold
      · rw [List.mem_singleton.mp hnew]
        trivial
  | act index step =>
      rw [RequestSystem.step]
      cases hrequest : system.requests[index]? with
      | none => exact hsame
      | some request =>
          have hmem := List.mem_of_getElem? hrequest
          obtain ⟨later, hchain, hphase, hgrows⟩ :=
            continues_act h.chain (h.follows request hmem) step
          refine ⟨later, hchain, ?_⟩
          intro other hother
          rcases List.mem_or_eq_of_mem_set hother with hold | rfl
          · exact (h.follows other hold).mono hgrows (List.prefix_append links later)
          · exact hphase

theorem chained_run (h : system.Chained id links) (actions : List RequestAction) :
    ∃ later, (system.run id actions).Chained id (links ++ later) := by
  induction actions generalizing system links with
  | nil => exact ⟨[], (List.append_nil links).symm ▸ h⟩
  | cons action rest ih =>
      obtain ⟨next, hnext⟩ := h.step action
      obtain ⟨later, hlater⟩ := ih hnext
      rw [List.append_assoc] at hlater
      exact ⟨next ++ later, hlater⟩

end RequestSystem

/-- Going back over `previous` is going down the chain. -/
theorem SingleChain.ancestor_eq {peer : PeerState LogTable} {id : Uuid} {links : List Link}
    (h : SingleChain peer id links) {n steps : ℕ} {link : Link}
    (hlink : links[n + steps]? = some link) :
    ancestor peer.world.blobs steps link = links[n]? := by
  induction steps generalizing link with
  | zero => exact hlink.symm
  | succ steps ih =>
      obtain ⟨manifest, hread, -, -, hprevious⟩ := h.manifests _ link hlink
      have hlt := (List.getElem?_eq_some_iff.mp hlink).1
      obtain ⟨previous, hbelow⟩ : ∃ previous, links[n + steps]? = some previous :=
        ⟨_, List.getElem?_eq_getElem (by omega)⟩
      have hprev : manifest.previous = some previous := hprevious.trans hbelow
      rw [ancestor_succ hread, hprev, Option.bind_some]
      exact ih hbelow

theorem SingleChain.head_descends {peer : PeerState LogTable} {id : Uuid} {links : List Link}
    (h : SingleChain peer id links) {link : Link} (hlink : link ∈ links) :
    ∃ headLink top steps, head peer.logs id none = .ok (headLink, top) ∧
      ancestor peer.world.blobs steps headLink = some link := by
  obtain ⟨n, hn⟩ := List.mem_iff_getElem?.mp hlink
  have hlt := (List.getElem?_eq_some_iff.mp hn).1
  have hat : n + (links.length - 1 - n) = links.length - 1 := by omega
  have htop : links[links.length - 1]? = links.getLast? := List.getLast?_eq_getElem?.symm
  obtain ⟨headLink, hlast⟩ : ∃ headLink, links.getLast? = some headLink := by
    rw [← htop]
    exact ⟨_, List.getElem?_eq_getElem (by omega)⟩
  refine ⟨headLink, links.length - 1, links.length - 1 - n, h.head_eq hlast, ?_⟩
  rw [h.ancestor_eq (n := n), hn]
  rw [hat, htop, hlast]

variable [LawfulPrimitives]

/-- However any number of requests on a bucket interleave, and wherever they stop, its log
stays a single chain that only grows, and its head descends from every version whose
request has returned it. -/
theorem requests_keep_single_chain (id : Uuid) (peer : PeerState LogTable)
    (links : List Link) (hchain : SingleChain peer id links) (actions : List RequestAction) :
    let system := (RequestSystem.start peer).run id actions
    ∃ later, SingleChain system.peer id (links ++ later) ∧
      ∀ request ∈ system.requests, ∀ link, request.phase = .returned (.ok link) →
        ∃ headLink top steps, head system.peer.logs id none = .ok (headLink, top) ∧
          ancestor system.peer.world.blobs steps headLink = some link := by
  have hstart : (RequestSystem.start peer).Chained id links :=
    ⟨hchain, fun request hrequest => absurd hrequest List.not_mem_nil⟩
  obtain ⟨later, hlater⟩ := RequestSystem.chained_run hstart actions
  refine ⟨later, hlater.chain, ?_⟩
  intro request hrequest link hreturned
  have hfollows := hlater.follows request hrequest
  rw [hreturned] at hfollows
  exact hlater.chain.head_descends hfollows

end

namespace Reference

/-- A new database with one bucket. -/
def createdTable : PeerState LogTable :=
  ((create aliceEnv ⟨7⟩ "docs".toList).run
    ⟨emptyWorld, ⟨Database.new true, Nat.zero_le _⟩, []⟩).state

theorem exists_chain_createdTable : ∃ genesis, SingleChain createdTable ⟨7⟩ [genesis] := by
  have hcreated : ((create aliceEnv ⟨7⟩ "docs".toList).run
      (⟨emptyWorld, ⟨Database.new true, Nat.zero_le _⟩, []⟩ : PeerState LogTable)).okAnd
        (fun _ => true) = true := by
    decide +kernel
  obtain ⟨_, peer, hrun, -⟩ := EStateM.Result.exists_of_okAnd hcreated
  have hpeer : createdTable = peer := congrArg EStateM.Result.state hrun
  have hnew : ∀ row ∈ (Database.new true).bucketLog, row.bucketId ≠ ⟨7⟩ :=
    fun row hrow => absurd hrow List.not_mem_nil
  rw [hpeer]
  exact singleChain_create hnew hrun

/-- Two requests that load the same version, and both pass the check before either of
them inserts. -/
def racingActions : List RequestAction :=
  [.arrive aliceEnv false, .arrive aliceEnv false,
    .act 0 .advance, .act 1 .advance, .act 0 .advance, .act 1 .advance,
    .act 0 .advance, .act 1 .advance,
    .act 0 (.operate (.mkdir (relPath ["a".toList]))),
    .act 1 (.operate (.mkdir (relPath ["b".toList]))),
    .act 0 .advance, .act 1 .advance, .act 0 .advance, .act 1 .advance,
    .act 1 .advance, .act 0 .advance, .act 1 .advance]

def isAcknowledged (request : Request) : Bool :=
  match request.phase with
  | .returned (.ok _) => true
  | _ => false

/-- The second request is acknowledged and the first one is not. -/
theorem racing_requests :
    let system := (RequestSystem.start createdTable).run ⟨7⟩ racingActions
    system.requests.map isAcknowledged = [false, true] ∧
      ∃ links, SingleChain system.peer ⟨7⟩ links ∧
        ∀ request ∈ system.requests, ∀ link, request.phase = .returned (.ok link) →
          ∃ headLink top steps, head system.peer.logs ⟨7⟩ none = .ok (headLink, top) ∧
            ancestor system.peer.world.blobs steps headLink = some link := by
  have hverdicts : ((RequestSystem.start createdTable).run ⟨7⟩
      racingActions).requests.map isAcknowledged = [false, true] := by
    decide +kernel
  obtain ⟨genesis, hchain⟩ := exists_chain_createdTable
  obtain ⟨later, hlater, hdescends⟩ :=
    requests_keep_single_chain ⟨7⟩ createdTable [genesis] hchain racingActions
  exact ⟨hverdicts, _, hlater, hdescends⟩

end Reference

end JaxFs

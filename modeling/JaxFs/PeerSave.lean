import JaxFs.MountSave
import JaxFs.Peer
import JaxFs.Database

/-!
# Saving a mount

What a save leaves behind.  The mount has moved on to the new version before the
log is asked, and nothing moves it back when the log refuses: from then on its link
is no entry of the log, and further saves are refused for that reason.
-/

namespace JaxFs

open BucketLogProvider

section

variable [P : Primitives]

/-! ## The mount after a refused append -/

variable {σ : Type}

theorem run_onMount_of_ok {α : Type} {x : MountM α} {state : PeerMount σ} {a : α}
    {mount : MountState} (h : x.run state.mount = .ok a mount) :
    (onMount x).run state = .ok a (state.setMount mount) :=
  EStateM.run_zoom_of_ok h

theorem run_onMount_of_error {α : Type} {x : MountM α} {state : PeerMount σ}
    {fault : Fault} {mount : MountState} (h : x.run state.mount = .error fault mount) :
    (onMount x).run state = .error fault (state.setMount mount) :=
  EStateM.run_zoom_of_error h

theorem run_onMount_eq_ok {α : Type} {x : MountM α} {state state' : PeerMount σ} {a : α}
    (h : (onMount x).run state = .ok a state') :
    ∃ mount, x.run state.mount = .ok a mount ∧ state' = state.setMount mount := by
  cases hrun : x.run state.mount with
  | ok b mount =>
      rw [run_onMount_of_ok hrun] at h
      cases h
      exact ⟨mount, rfl, rfl⟩
  | error fault mount =>
      rw [run_onMount_of_error hrun] at h
      contradiction

theorem run_onMount_eq_error {α : Type} {x : MountM α} {state state' : PeerMount σ}
    {fault : Fault} (h : (onMount x).run state = .error fault state') :
    ∃ mount, x.run state.mount = .error fault mount ∧ state' = state.setMount mount := by
  cases hrun : x.run state.mount with
  | ok b mount =>
      rw [run_onMount_of_ok hrun] at h
      contradiction
  | error fault' mount =>
      rw [run_onMount_of_error hrun] at h
      cases h
      exact ⟨mount, rfl, rfl⟩

/-- Neither the mount nor its store is touched. -/
def SameMount (state state' : PeerMount σ) : Prop := state'.mount = state.mount

theorem SameMount.trans (state state' state'' : PeerMount σ) (h : SameMount state state')
    (h' : SameMount state' state'') : SameMount state state'' :=
  Eq.trans h' h

theorem world_dispatch (env : PeerEnv) (job : SyncJob) (peer : PeerState σ) :
    ((dispatch env job).run peer).state.world = peer.world := by
  unfold dispatch EStateM.run
  dsimp only
  split_ifs
  · rfl
  · rfl

theorem sameMount_tryDispatch (env : PeerEnv) (job : SyncJob) :
    EStateM.Preserves (@SameMount _ σ) (tryDispatch env job) := by
  intro state
  have hworld := world_dispatch env job state.peer
  exact congrArg (fun world => (⟨world, state.inner⟩ : MountState)) hworld

/-- The pings do not touch the mount, and fail only by a panic. -/
theorem sameMount_pingShares (env : PeerEnv) (bucketId : Uuid) (keys : List Name) :
    EStateM.Preserves (@SameMount _ σ) (pingShares env bucketId keys) := by
  induction keys with
  | nil => exact fun _ => rfl
  | cons key rest ih =>
      rw [pingShares]
      cases PublicKey.fromHex key with
      | ok peerPublicKey =>
          dsimp only
          split_ifs
          · exact ih
          · apply EStateM.Preserves.bind SameMount.trans (sameMount_tryDispatch _ _)
            exact fun _ => ih
      | error fault =>
          cases fault with
          | error error => exact ih
          | panic => exact fun _ => rfl
          | outOfFuel => exact fun _ => rfl

variable [BucketLogProvider σ]

/-- The version is written, and the log refuses it. -/
structure Refused (env : PeerEnv) (publish : Bool) (state : PeerMount σ)
    (error : BucketLogError) (state' : PeerMount σ) : Prop where
  written : ∃ result mount, (save publish).run state.mount = .ok result mount
  refused : (saveMount env publish).run state =
    .error (.error (.default ("Failed to append to log: " ++ error.message))) state'

/-- The mount is where it was, with the operations it had. -/
structure Restored (state state' : PeerMount σ) : Prop where
  link : state'.inner.link = state.inner.link
  height : state'.inner.height = state.inner.height
  opsLog : state'.inner.opsLog = state.inner.opsLog

theorem appendVersion_cases (bucketId : Uuid) (name : Name) (link previousLink : Link)
    (height : ℕ) (isPublished : Bool) (state : PeerMount σ) :
    ∃ logs, (append state.peer.logs bucketId name link (some previousLink) height
        isPublished = (.ok (), logs) ∧
      (appendVersion bucketId name link previousLink height isPublished).run state =
        .ok () { state with peer := { state.peer with logs := logs } }) ∨
    ∃ error, append state.peer.logs bucketId name link (some previousLink) height
        isPublished = (.error error, logs) ∧
      (appendVersion bucketId name link previousLink height isPublished).run state =
        .error (.error (.default ("Failed to append to log: " ++ error.message)))
          { state with peer := { state.peer with logs := logs } } := by
  unfold appendVersion EStateM.run
  dsimp only
  cases append state.peer.logs bucketId name link (some previousLink) height
      isPublished with
  | mk verdict logs =>
      refine ⟨logs, ?_⟩
      cases verdict with
      | ok _ => exact Or.inl ⟨rfl, rfl⟩
      | error error => exact Or.inr ⟨error, rfl, rfl⟩

theorem sameMount_appendVersion (bucketId : Uuid) (name : Name) (link previousLink : Link)
    (height : ℕ) (isPublished : Bool) : EStateM.Preserves (@SameMount _ σ)
      (appendVersion bucketId name link previousLink height isPublished) := by
  intro state
  obtain ⟨logs, ⟨-, hrun⟩ | ⟨error, -, hrun⟩⟩ :=
    appendVersion_cases bucketId name link previousLink height isPublished state
  · rw [hrun]
    rfl
  · rw [hrun]
    rfl

theorem run_saveMount_of_save {env : PeerEnv} {publish : Bool} {state : PeerMount σ}
    {link previousLink : Link} {height : ℕ} {mount : MountState}
    (hsave : (save publish).run state.mount = .ok (link, previousLink, height) mount) :
    (saveMount env publish).run state = (do
      appendVersion state.inner.manifest.id state.inner.manifest.name link previousLink
        height mount.inner.manifest.isPublished
      pingShares env state.inner.manifest.id
        (mount.inner.manifest.shares.toList.map Prod.fst)
      pure link : PeerM σ Link).run (state.setMount mount) := by
  unfold saveMount
  rw [run_getPeer_bind, EStateM.run_bind_of_ok (run_onMount_of_ok hsave)]
  rfl

/-- Once the version is written the mount has moved on, whatever the log says. -/
theorem mount_saveMount_of_save {env : PeerEnv} {publish : Bool} {state : PeerMount σ}
    {link previousLink : Link} {height : ℕ} {mount : MountState}
    (hsave : (save publish).run state.mount = .ok (link, previousLink, height) mount) :
    ((saveMount env publish).run state).state.mount = mount := by
  have hrest : EStateM.Preserves SameMount (do
      appendVersion state.inner.manifest.id state.inner.manifest.name link previousLink
        height mount.inner.manifest.isPublished
      pingShares env state.inner.manifest.id
        (mount.inner.manifest.shares.toList.map Prod.fst)
      pure link : PeerM σ Link) := by
    apply EStateM.Preserves.bind SameMount.trans (sameMount_appendVersion _ _ _ _ _ _)
    intro _
    apply EStateM.Preserves.bind SameMount.trans (sameMount_pingShares env _ _)
    exact fun _ _ => rfl
  rw [run_saveMount_of_save hsave]
  exact hrest (state.setMount mount)

/-- A refused save has already moved the mount on, with its operations gone. -/
theorem saveMount_refused_not_restored (env : PeerEnv) (publish : Bool)
    (state state' : PeerMount σ) (error : BucketLogError)
    (hrefused : Refused env publish state error state') :
    state'.inner.height = state.inner.height + 1 ∧
      (∀ op, op ∉ state'.inner.opsLog) ∧ ¬ Restored state state' := by
  obtain ⟨⟨link, previousLink, height⟩, mount, hsave⟩ := hrefused.written
  obtain ⟨manifest, world', -, -, hmount⟩ := run_save_eq_ok hsave
  have hinner : state'.inner = mount.inner := by
    rw [← @mount_saveMount_of_save _ _ _ env _ _ _ _ _ _ hsave, hrefused.refused]
    rfl
  rw [hmount] at hinner
  have hheight : state'.inner.height = state.inner.height + 1 := by rw [hinner]; rfl
  refine ⟨hheight, ?_, ?_⟩
  · intro op
    rw [hinner]
    exact PathOpLog.not_mem_clearPreservingClock
  · intro hrestored
    have hsame := hrestored.height
    omega

/-- A mount whose link is not in the log at its height cannot be saved: the log
refuses every version, and has the entries it had. -/
theorem saveMount_of_not_logged [LawfulBucketLogProvider σ] {env : PeerEnv}
    {publish : Bool} {state : PeerMount σ}
    (hunlogged : ¬ Logged state.peer.logs state.inner.manifest.id state.inner.height
      state.inner.link) :
    (∃ fault mount, (save publish).run state.mount = .error fault mount ∧
      (saveMount env publish).run state = .error fault (state.setMount mount)) ∨
    ∃ result mount fault logs, (save publish).run state.mount = .ok result mount ∧
      SameEntries state.peer.logs logs ∧
      (saveMount env publish).run state =
        .error fault ⟨{ (state.setMount mount).peer with logs := logs }, mount.inner⟩ := by
  cases hsave : (save publish).run state.mount with
  | error fault mount =>
      left
      refine ⟨fault, mount, rfl, ?_⟩
      unfold saveMount
      rw [run_getPeer_bind, EStateM.run_bind_of_error (run_onMount_of_error hsave)]
  | ok result mount =>
      right
      obtain ⟨manifest, world', -, hresult, -⟩ := run_save_eq_ok hsave
      obtain ⟨newLink, previousLink, height⟩ := result
      cases hresult
      rw [run_saveMount_of_save hsave]
      obtain ⟨logs, ⟨hverdict, -⟩ | ⟨error, hverdict, hfail⟩⟩ :=
        appendVersion_cases state.inner.manifest.id state.inner.manifest.name newLink
          state.inner.link (state.inner.height + 1) mount.inner.manifest.isPublished
          (state.setMount mount)
      · obtain ⟨below, hheight, hlogged⟩ :=
          LawfulBucketLogProvider.append_previous hverdict
        have hbelow : below = state.inner.height := by omega
        rw [hbelow] at hlogged
        exact absurd hlogged hunlogged
      · exact ⟨_, mount, _, logs, rfl,
          LawfulBucketLogProvider.logged_append_error hverdict,
          EStateM.run_bind_of_error hfail⟩

end

namespace Reference

def aliceEnv : PeerEnv := ⟨alice, fun _ _ => none, fun _ _ => true⟩

/-- The log of a bucket whose second version came from somebody else. -/
def takenLog : Database :=
  ⟨[⟨⟨7⟩, "docs".toList, manifestLink genesis, none, 0, false⟩,
    ⟨⟨7⟩, "docs".toList, Link.default, some (manifestLink genesis), 1, false⟩], false⟩

/-- A mount of the first version with one pending operation. -/
def lateMount : PeerMount Database :=
  ⟨⟨emptyWorld, takenLog, []⟩,
    emptyMount.inner.recordOp .mkdir (relPath ["docs".toList]) none true⟩

theorem lateMount_logged :
    Logged lateMount.peer.logs ⟨7⟩ lateMount.inner.height lateMount.inner.link :=
  ⟨[manifestLink genesis], by decide +kernel, by decide +kernel⟩

theorem lateMount_refused :
    ∃ state', Refused aliceEnv false lateMount (.provider "UNIQUE constraint failed")
      state' ∧ state'.inner.height = 1 := by
  have hwritten : ((save false).run lateMount.mount).okAnd (fun _ => true) = true := by
    decide +kernel
  have hrefused : ((saveMount aliceEnv false).run lateMount).errorAnd
      (fun fault state => decide (fault = .error (.default ("Failed to append to log: " ++
        (BucketLogError.provider "UNIQUE constraint failed").message)) ∧
        state.inner.height = 1)) = true := by
    decide +kernel
  obtain ⟨result, mount, hsave, -⟩ := EStateM.Result.exists_of_okAnd hwritten
  obtain ⟨fault, state', hrun, htest⟩ := EStateM.Result.exists_of_errorAnd hrefused
  obtain ⟨rfl, hheight⟩ := of_decide_eq_true htest
  exact ⟨state', ⟨⟨result, mount, hsave⟩, hrun⟩, hheight⟩

/-- The refused save has moved the mount to a height where the log has another
version. -/
theorem lateMount_not_restored :
    Logged lateMount.peer.logs ⟨7⟩ lateMount.inner.height lateMount.inner.link ∧
      ∃ error state', Refused aliceEnv false lateMount error state' ∧
        ¬ Restored lateMount state' := by
  obtain ⟨state', hrefused, hheight⟩ := lateMount_refused
  refine ⟨lateMount_logged, _, state', hrefused, ?_⟩
  intro hrestored
  have hsame : state'.inner.height = 0 := hrestored.height
  omega

theorem lateMount_loses_pending :
    ∃ error state', Refused aliceEnv false lateMount error state' ∧
      ∀ op, op ∉ state'.inner.opsLog := by
  obtain ⟨state', hrefused, -⟩ := lateMount_refused
  obtain ⟨-, hgone, -⟩ :=
    saveMount_refused_not_restored aliceEnv false lateMount state' _ hrefused
  exact ⟨_, state', hrefused, hgone⟩

end Reference

end JaxFs

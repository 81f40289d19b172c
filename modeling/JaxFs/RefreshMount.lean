import JaxFs.MountManager
import JaxFs.MountSave
import JaxFs.PeerSave

/-!
# Refreshing live mounts

Everything a refresh that returns can have done, and how a call of
`onBucketSynced` divides into the turns of its mounts.  A turn does not touch the
other mounts.  Whether it reloads is decided by the operation log of the mount
alone, and a loaded mount has the log of its version.
-/

namespace JaxFs

open BucketLogProvider

section

variable [P : Primitives] {σ : Type}

omit P in
theorem run_attempt_of_ok {τ α : Type} {x : EStateM Fault τ α} {state state' : τ} {a : α}
    (h : x.run state = .ok a state') : (attempt x).run state = .ok (.ok a) state' := by
  unfold attempt EStateM.run
  unfold EStateM.run at h
  dsimp only
  rw [h]

omit P in
theorem run_attempt_of_error {τ α : Type} {x : EStateM Fault τ α} {state state' : τ}
    {error : MountError} (h : x.run state = .error (.error error) state') :
    (attempt x).run state = .ok (.error error) state' := by
  unfold attempt EStateM.run
  unfold EStateM.run at h
  dsimp only
  rw [h]

omit P in
theorem run_attempt_eq_ok {τ α : Type} {x : EStateM Fault τ α} {state state' : τ}
    {result : Except MountError α} (h : (attempt x).run state = .ok result state') :
    (∃ a, x.run state = .ok a state' ∧ result = .ok a) ∨
      ∃ error, x.run state = .error (.error error) state' ∧ result = .error error := by
  cases hrun : x.run state with
  | ok a after =>
      rw [run_attempt_of_ok hrun] at h
      cases h
      exact Or.inl ⟨a, rfl, rfl⟩
  | error fault after =>
      cases fault with
      | error error =>
          rw [run_attempt_of_error hrun] at h
          cases h
          exact Or.inr ⟨error, rfl, rfl⟩
      | panic =>
          unfold attempt EStateM.run at h
          unfold EStateM.run at hrun
          simp only [hrun] at h
          contradiction
      | outOfFuel =>
          unfold attempt EStateM.run at h
          unfold EStateM.run at hrun
          simp only [hrun] at h
          contradiction

variable [BucketLogProvider σ]

theorem run_reloadMount_of_ok {env : PeerEnv} {bucketId : Uuid} {state : PeerMount σ}
    {head : MountInner} (h : state.peer.mountHead env bucketId = .ok head) :
    (reloadMount env bucketId).run state = .ok () ⟨state.peer, head⟩ := by
  unfold reloadMount
  rw [run_getPeer_bind, h]
  rfl

theorem run_reloadMount_of_error {env : PeerEnv} {bucketId : Uuid} {state : PeerMount σ}
    {fault : Fault} (h : state.peer.mountHead env bucketId = .error fault) :
    (reloadMount env bucketId).run state = .error fault state := by
  unfold reloadMount
  rw [run_getPeer_bind, h]
  rfl

/-- What a refresh that returns has done: a reload, a merge, or a merge that failed
and was made good by a reload. -/
inductive Refreshed (env : PeerEnv) (fuel : ℕ) (bucketId : Uuid) (state : PeerMount σ) :
    Refresh → PeerMount σ → Prop where
  | reloaded {head : MountInner} (hempty : state.inner.opsLog.isEmpty = true)
      (hhead : state.peer.mountHead env bucketId = .ok head) :
      Refreshed env fuel bucketId state .reloaded ⟨state.peer, head⟩
  | merged {incoming : MountInner} {result : MergeResult} {link : Link}
      {middle after : PeerMount σ} {saved : Except MountError Link}
      (hpending : state.inner.opsLog.isEmpty = false)
      (hhead : state.peer.mountHead env bucketId = .ok incoming)
      (hmerge : (onMount (mergeFrom fuel incoming (conflictFile 8))).run state =
        .ok (result, link) middle)
      (hsave : (attempt (saveMount env false)).run middle = .ok saved after) :
      Refreshed env fuel bucketId state (.merged result link saved) after
  | mergeFailed {incoming head : MountInner} {error : MountError} {middle : PeerMount σ}
      (hpending : state.inner.opsLog.isEmpty = false)
      (hhead : state.peer.mountHead env bucketId = .ok incoming)
      (hmerge : (onMount (mergeFrom fuel incoming (conflictFile 8))).run state =
        .error (.error error) middle)
      (hreload : middle.peer.mountHead env bucketId = .ok head) :
      Refreshed env fuel bucketId state (.mergeFailed error) ⟨middle.peer, head⟩

theorem refreshed_of_run {env : PeerEnv} {fuel : ℕ} {bucketId : Uuid}
    {state after : PeerMount σ} {refresh : Refresh}
    (hrun : (refreshMount env fuel bucketId).run state = .ok refresh after) :
    Refreshed env fuel bucketId state refresh after := by
  unfold refreshMount at hrun
  rw [run_getPeer_bind] at hrun
  cases hempty : state.inner.opsLog.isEmpty with
  | true =>
      rw [hempty, if_pos rfl] at hrun
      cases hhead : state.peer.mountHead env bucketId with
      | error fault =>
          rw [EStateM.run_bind_of_error (run_reloadMount_of_error hhead)] at hrun
          contradiction
      | ok head =>
          rw [EStateM.run_bind_of_ok (run_reloadMount_of_ok hhead)] at hrun
          cases hrun
          exact Refreshed.reloaded hempty hhead
  | false =>
      rw [hempty, if_neg (by simp)] at hrun
      unfold mergeHead at hrun
      rw [run_getPeer_bind] at hrun
      cases hhead : state.peer.mountHead env bucketId with
      | error fault =>
          rw [hhead, EStateM.run_bind_of_error (EStateM.run_ofExcept_error _ _)] at hrun
          contradiction
      | ok incoming =>
          rw [hhead, EStateM.run_bind_of_ok (EStateM.run_ofExcept_ok _ _)] at hrun
          obtain ⟨outcome, middle, hattempt, hrest⟩ := EStateM.run_bind_eq_ok_iff.mp hrun
          rcases run_attempt_eq_ok hattempt with ⟨⟨result, link⟩, hmerge, rfl⟩ |
            ⟨error, hmerge, rfl⟩
          · obtain ⟨saved, last, hsave, hdone⟩ := EStateM.run_bind_eq_ok_iff.mp hrest
            cases hdone
            exact Refreshed.merged hempty hhead hmerge hsave
          · obtain ⟨_, last, hreload, hdone⟩ := EStateM.run_bind_eq_ok_iff.mp hrest
            cases hdone
            cases hagain : middle.peer.mountHead env bucketId with
            | error fault =>
                rw [run_reloadMount_of_error hagain] at hreload
                contradiction
            | ok head =>
                rw [run_reloadMount_of_ok hagain] at hreload
                cases hreload
                exact Refreshed.mergeFailed hempty hhead hmerge hagain

/-! ## Turns -/

/-- The live mount of the given id is not touched. -/
def SameLive (mountId : Uuid) (state state' : ManagerState σ) : Prop :=
  state'.mounts.get? mountId = state.mounts.get? mountId

omit [BucketLogProvider σ] in
theorem SameLive.trans {mountId : Uuid} (state state' state'' : ManagerState σ)
    (h : SameLive mountId state state') (h' : SameLive mountId state' state'') :
    SameLive mountId state state'' :=
  Eq.trans h' h

section

variable {env : PeerEnv} {fuel : ℕ} {bucketId : Uuid}

/-- The manager after the turn of a mount. -/
def ManagerState.afterTurn (state : ManagerState σ) (mountId : Uuid) (live : LiveMount)
    (after : PeerMount σ) : ManagerState σ where
  peer := after.peer
  mounts := state.mounts.put mountId
    { live with
      mount := after.inner
      cache := live.cache.invalidateAll }
  events := state.events ++ [.mountInvalidated mountId]

theorem run_syncMount (mountId : Uuid) (state : ManagerState σ) :
    (syncMount env fuel bucketId mountId).run state =
      match state.mounts.get? mountId with
      | none => .ok () state
      | some live =>
          if live.bucketId = bucketId then
            match (refreshMount env fuel bucketId).run ⟨state.peer, live.mount⟩ with
            | .ok _ after => .ok () (state.afterTurn mountId live after)
            | .error fault after => .error fault
                { state with
                  peer := after.peer
                  mounts := state.mounts.put mountId { live with mount := after.inner } }
          else .ok () state := rfl

theorem sameLive_syncMount {mountId other : Uuid} (hne : other ≠ mountId) :
    EStateM.Preserves (@SameLive _ σ mountId) (syncMount env fuel bucketId other) := by
  intro state
  unfold SameLive
  rw [run_syncMount]
  cases state.mounts.get? other with
  | none => rfl
  | some live =>
      dsimp only
      split_ifs
      · cases (refreshMount env fuel bucketId).run ⟨state.peer, live.mount⟩ with
        | ok refresh after => exact FinMap.get?_put_of_ne _ _ hne
        | error fault after => exact FinMap.get?_put_of_ne _ _ hne
      · rfl

theorem sameLive_onBucketSynced {mountId : Uuid} {order : List Uuid}
    (hnot : mountId ∉ order) :
    EStateM.Preserves (@SameLive _ σ mountId) (onBucketSynced env fuel bucketId order) := by
  induction order with
  | nil => exact fun _ => rfl
  | cons first rest ih =>
      rw [onBucketSynced]
      apply EStateM.Preserves.bind SameLive.trans
      · apply sameLive_syncMount
        intro heq
        exact hnot (by simp [heq])
      · intro _
        exact ih (fun hmem => hnot (List.mem_cons_of_mem _ hmem))

theorem onBucketSynced_append (order rest : List Uuid) :
    onBucketSynced env fuel bucketId (order ++ rest) = (do
      onBucketSynced env fuel bucketId order
      onBucketSynced env fuel bucketId rest : ManagerM σ Unit) := by
  induction order with
  | nil => simp [onBucketSynced]
  | cons first order ih => simp [onBucketSynced, ih]

theorem run_syncMount_eq_ok {mountId : Uuid} {state state' : ManagerState σ}
    {live : LiveMount} (hlive : state.mounts.get? mountId = some live)
    (hbucket : live.bucketId = bucketId)
    (hrun : (syncMount env fuel bucketId mountId).run state = .ok () state') :
    ∃ refresh after,
      (refreshMount env fuel bucketId).run ⟨state.peer, live.mount⟩ =
        .ok refresh after ∧
      state' = state.afterTurn mountId live after := by
  rw [run_syncMount, hlive] at hrun
  dsimp only at hrun
  rw [if_pos hbucket] at hrun
  cases hrefresh : (refreshMount env fuel bucketId).run ⟨state.peer, live.mount⟩ with
  | error fault after =>
      rw [hrefresh] at hrun
      contradiction
  | ok refresh after =>
      rw [hrefresh] at hrun
      cases hrun
      exact ⟨refresh, after, rfl, rfl⟩

/-- A call that returns gave every mount of the bucket its turn. -/
theorem turn_of_onBucketSynced {order rest : List Uuid} {mountId : Uuid}
    {state before state' : ManagerState σ} {live : LiveMount}
    (hbefore : (onBucketSynced env fuel bucketId order).run state = .ok () before)
    (hlive : before.mounts.get? mountId = some live) (hbucket : live.bucketId = bucketId)
    (hrun : (onBucketSynced env fuel bucketId (order ++ mountId :: rest)).run state =
      .ok () state') :
    ∃ refresh after,
      (refreshMount env fuel bucketId).run ⟨before.peer, live.mount⟩ =
        .ok refresh after ∧
      (onBucketSynced env fuel bucketId rest).run (before.afterTurn mountId live after) =
        .ok () state' := by
  rw [onBucketSynced_append, EStateM.run_bind_of_ok hbefore, onBucketSynced] at hrun
  obtain ⟨_, middle, hturn, hrest⟩ := EStateM.run_bind_eq_ok_iff.mp hrun
  obtain ⟨refresh, after, hrefresh, rfl⟩ := run_syncMount_eq_ok hlive hbucket hturn
  exact ⟨refresh, after, hrefresh, hrest⟩

/-- After the call the mount is as its turn left it. -/
theorem mount_after_turn {rest : List Uuid} {mountId : Uuid} (hnot : mountId ∉ rest)
    {before state' : ManagerState σ} {live : LiveMount} {after : PeerMount σ}
    (hrest : (onBucketSynced env fuel bucketId rest).run
      (before.afterTurn mountId live after) = .ok () state') :
    ∃ live', state'.mounts.get? mountId = some live' ∧ live'.mount = after.inner := by
  have hsame := (sameLive_onBucketSynced hnot).of_ok hrest
  unfold SameLive at hsame
  rw [ManagerState.afterTurn, FinMap.get?_put_self] at hsame
  exact ⟨_, hsame, rfl⟩

end

/-! ## Reloads -/

/-- The turn takes the reload path and leaves the mount at the head, with nothing
written: neither a version nor a log entry. -/
def Reloads (env : PeerEnv) (fuel : ℕ) (bucketId : Uuid) (state : PeerMount σ)
    (head : MountInner) : Prop :=
  (refreshMount env fuel bucketId).run state = .ok .reloaded ⟨state.peer, head⟩

theorem reloads_iff {env : PeerEnv} {fuel : ℕ} {bucketId : Uuid} {state : PeerMount σ}
    {head : MountInner} (hhead : state.peer.mountHead env bucketId = .ok head) :
    Reloads env fuel bucketId state head ↔ state.inner.opsLog.isEmpty = true := by
  constructor
  · intro hreloads
    cases refreshed_of_run hreloads with
    | reloaded hempty _ => exact hempty
  · intro hempty
    unfold Reloads refreshMount
    rw [run_getPeer_bind, hempty, if_pos rfl,
      EStateM.run_bind_of_ok (run_reloadMount_of_ok hhead)]
    rfl

/-- A mount that was loaded and left alone is reloaded, and at the head after the
call, exactly when its version was saved without operations. -/
theorem onBucketSynced_reloads_iff (env : PeerEnv) (fuel : ℕ) (bucketId mountId : Uuid)
    (order rest : List Uuid) (hnot : mountId ∉ rest)
    (state before : ManagerState σ) (live : LiveMount) (head : MountInner)
    (version : Link)
    (hbefore : (onBucketSynced env fuel bucketId order).run state = .ok () before)
    (hlive : before.mounts.get? mountId = some live) (hbucket : live.bucketId = bucketId)
    (hload : load before.peer.world.blobs version env.secretKey = .ok live.mount)
    (hhead : before.peer.mountHead env bucketId = .ok head) :
    (Reloads env fuel bucketId ⟨before.peer, live.mount⟩ head ∧
      ∀ state', (onBucketSynced env fuel bucketId (order ++ mountId :: rest)).run state =
          .ok () state' →
        ∃ live', state'.mounts.get? mountId = some live' ∧ live'.mount = head) ↔
      ∀ log, persistedOps before.peer.world.blobs version env.secretKey = .ok log →
        log.isEmpty = true := by
  have hops := persistedOps_of_load hload
  have hreloads := @reloads_iff _ _ _ env fuel bucketId ⟨before.peer, live.mount⟩ head hhead
  constructor
  · intro ⟨hturn, _⟩ log hlog
    rw [hops] at hlog
    cases hlog
    exact hreloads.mp hturn
  · intro hempty
    have hturn := hreloads.mpr (hempty live.mount.opsLog hops)
    refine ⟨hturn, ?_⟩
    intro state' hrun
    obtain ⟨refresh, after, hrefresh, hrest⟩ :=
      turn_of_onBucketSynced hbefore hlive hbucket hrun
    obtain ⟨live', hlive', hmount⟩ := mount_after_turn hnot hrest
    have hafter := hrefresh.symm.trans hturn
    cases hafter
    exact ⟨live', hlive', hmount⟩

end

namespace Reference

/-- A peer that has created a bucket, with the mount of its first version. -/
def newBucket : PeerMount MemoryBucketLogProvider :=
  match (init ⟨7⟩ "docs".toList alice).run emptyWorld with
  | .ok inner world =>
      ⟨⟨world, (append MemoryBucketLogProvider.new ⟨7⟩ "docs".toList inner.link none 0
        false).2, []⟩, inner⟩
  | .error _ world => ⟨⟨world, MemoryBucketLogProvider.new, []⟩, emptyMount.inner⟩

/-- The same bucket one version later. -/
def savedBucket : PeerMount MemoryBucketLogProvider :=
  ((do
    onMount (mkdir (absPath ["a".toList]))
    saveMount aliceEnv false : PeerM MemoryBucketLogProvider Link).run newBucket).state

/-- A manager with one live mount. -/
def managerOf (state : PeerMount MemoryBucketLogProvider) :
    ManagerState MemoryBucketLogProvider where
  peer := state.peer
  mounts := FinMap.put KeyedMap.empty ⟨1⟩
    ⟨state.inner, ⟨KeyedMap.empty, KeyedMap.empty, KeyedMap.empty⟩, ⟨7⟩⟩
  events := []

theorem newBucket_head :
    head newBucket.peer.logs ⟨7⟩ none = .ok (newBucket.inner.link, 0) := by
  decide +kernel

theorem newBucket_mountHead :
    newBucket.peer.mountHead aliceEnv ⟨7⟩ =
      load newBucket.peer.world.blobs newBucket.inner.link alice := by
  unfold PeerState.mountHead
  rw [newBucket_head]
  rfl

/-- The first version holds no operations, and its mount is reloaded. -/
theorem newBucket_reloads :
    ∃ inner, load newBucket.peer.world.blobs newBucket.inner.link alice = .ok inner ∧
      Reloads aliceEnv 2 ⟨7⟩ ⟨newBucket.peer, inner⟩ inner := by
  have hloads : (load newBucket.peer.world.blobs newBucket.inner.link alice).toOption.map
      (fun inner => inner.opsLog.isEmpty) = some true := by
    decide +kernel
  have hhead := newBucket_mountHead
  generalize newBucket = bucket at hloads hhead ⊢
  obtain ⟨inner, hinner, hempty⟩ := Option.map_eq_some_iff.mp hloads
  have hload := Except.eq_ok_of_toOption hinner
  have hops := persistedOps_of_load hload
  refine ⟨inner, hload, ?_⟩
  apply ((onBucketSynced_reloads_iff aliceEnv 2 ⟨7⟩ ⟨1⟩ [] [] (by simp)
    (managerOf ⟨bucket.peer, inner⟩) _ _ inner bucket.inner.link rfl
    (FinMap.get?_put_self _ _ _) rfl hload (hhead.trans hload)).mpr ?_).1
  intro log hlog
  cases hops.symm.trans hlog
  exact hempty

/-- The next version was saved with an operation.  Its mount, loaded and left
alone, is not reloaded, although it is at the head already. -/
theorem savedBucket_not_reloaded :
    ∃ inner, load savedBucket.peer.world.blobs savedBucket.inner.link alice = .ok inner ∧
      savedBucket.peer.mountHead aliceEnv ⟨7⟩ = .ok inner ∧
      ¬ Reloads aliceEnv 3 ⟨7⟩ ⟨savedBucket.peer, inner⟩ inner := by
  have hfacts : (load savedBucket.peer.world.blobs savedBucket.inner.link
        alice).toOption.map (fun inner => inner.opsLog.isEmpty) = some false ∧
      head savedBucket.peer.logs ⟨7⟩ none = .ok (savedBucket.inner.link, 1) := by
    decide +kernel
  generalize savedBucket = bucket at hfacts ⊢
  obtain ⟨hloads, htop⟩ := hfacts
  obtain ⟨inner, hinner, hnonempty⟩ := Option.map_eq_some_iff.mp hloads
  have hload := Except.eq_ok_of_toOption hinner
  have hhead : bucket.peer.mountHead aliceEnv ⟨7⟩ = .ok inner := by
    unfold PeerState.mountHead
    rw [htop]
    exact hload
  refine ⟨inner, hload, hhead, ?_⟩
  intro hreloads
  have hempty := (@reloads_iff _ _ _ _ _ _ ⟨bucket.peer, inner⟩ _ hhead).mp hreloads
  rw [hnonempty] at hempty
  contradiction

end Reference

end JaxFs

import JaxFs.MountApply
import JaxFs.RefreshMount

/-!
# Merged versions and the log

A merge stores a version of its own and does not append it; the save that follows
builds on that version, so the log refuses it.  Both versions are new to the log as
long as the random generator does not repeat a nonce that the log has seen.
-/

namespace JaxFs

open BucketLogProvider

section

variable [P : Primitives] [LawfulPrimitives]

/-! ## Versions that are new to the log -/

variable {σ : Type} [BucketLogProvider σ]

/-- The manifests of the log are in the store, and none of their entries is
encrypted under a nonce that is still to be drawn. -/
structure FreshLog (logs : σ) (world : World) : Prop where
  stored : ∀ id height link, Logged logs id height link →
    ∃ data, world.blobs link.hash = some data
  fresh : ∀ id height link manifest, Logged logs id height link →
    getManifestFromBlobs world.blobs link = .ok manifest →
    ∀ draw, world.rng ≤ draw → ∀ secret data, manifest.entry.hash ≠
      P.hash (Secret.encrypt secret (P.random draw nonceSize) data)

omit [LawfulPrimitives] in
theorem FreshLog.grows {logs logs' : σ} {world world' : World} (h : FreshLog logs world)
    (hsame : SameEntries logs logs') (hgrows : Grows world world') :
    FreshLog logs' world' := by
  constructor
  · intro id height link hlogged
    obtain ⟨data, hdata⟩ := h.stored id height link ((hsame id height link).mp hlogged)
    exact ⟨data, hgrows.blobs _ _ hdata⟩
  · intro id height link manifest hlogged hmanifest draw hdraw
    have hold := (hsame id height link).mp hlogged
    obtain ⟨data, hdata⟩ := h.stored id height link hold
    apply h.fresh id height link manifest hold ?_ draw (hgrows.rng.trans hdraw)
    unfold getManifestFromBlobs at hmanifest ⊢
    rw [hgrows.blobs _ _ hdata] at hmanifest
    rw [hdata]
    exact hmanifest

/-- A version that has just been stored is not in the log. -/
theorem SavedVersion.not_logged {inner : MountInner} {world world' : World}
    {manifest : Manifest} {link : Link}
    (hsaved : SavedVersion inner world manifest link world') {logs : σ}
    (hfresh : FreshLog logs world) (id : Uuid) (height : ℕ) :
    ¬ Logged logs id height link := by
  intro hlogged
  obtain ⟨data, hdata⟩ := hfresh.stored id height link hlogged
  have hlater := hsaved.grows.blobs _ _ hdata
  rw [hsaved.stored] at hlater
  cases hlater
  obtain ⟨secret, draw, hdraw, hentry⟩ := hsaved.entry
  apply hfresh.fresh id height link manifest hlogged ?_ draw hdraw secret _ hentry
  unfold getManifestFromBlobs
  rw [hdata]
  simp [LawfulPrimitives.decode_encodeManifest]

variable [LawfulBucketLogProvider σ] {env : PeerEnv} {fuel : ℕ} {bucketId : Uuid}

/-- The save after a merge: the log is as it was, and the mount is not in it. -/
theorem merged_not_logged {incoming : MountInner} {result : MergeResult} {link : Link}
    {state middle after : PeerMount σ} {saved : Except MountError Link}
    (hfresh : FreshLog state.peer.logs state.peer.world)
    (hmerge : (onMount (mergeFrom fuel incoming (conflictFile 8))).run state =
      .ok (result, link) middle)
    (hsave : (attempt (saveMount env false)).run middle = .ok saved after) :
    SameEntries state.peer.logs after.peer.logs ∧
      Grows state.peer.world after.peer.world ∧
      ∀ id, ¬ Logged after.peer.logs id after.inner.height after.inner.link := by
  obtain ⟨mount, hmergeMount, rfl⟩ := run_onMount_eq_ok hmerge
  obtain ⟨before, rest, hgrows, hfirst⟩ := save_of_mergeFrom hmergeMount
  obtain ⟨manifest, world', hversion, -, hmount⟩ := run_save_eq_ok hfirst
  have hsaved := savedVersion_of_saveVersion hversion
  have hfreshBefore : FreshLog state.peer.logs before.world :=
    hfresh.grows (fun _ _ _ => Iff.rfl) hgrows
  have hfirstUnlogged := hsaved.not_logged hfreshBefore
  have hworld : mount.world = world' := by rw [hmount]
  have hlink : mount.inner.link = link := by rw [hmount]
  have hgrowsMount : Grows state.peer.world mount.world := by
    rw [hworld]
    exact Grows.trans hgrows hsaved.grows
  have hunlogged : ¬ Logged (state.setMount mount).peer.logs
      (state.setMount mount).inner.manifest.id (state.setMount mount).inner.height
      (state.setMount mount).inner.link := by
    change ¬ Logged state.peer.logs _ _ mount.inner.link
    rw [hlink]
    exact hfirstUnlogged _ _
  have hsecond := @saveMount_of_not_logged _ _ _ _ env false _ hunlogged
  rcases run_attempt_eq_ok hsave with ⟨newLink, hok, -⟩ | ⟨error, hfail, -⟩
  · rcases hsecond with ⟨fault, mount', -, hrun⟩ | ⟨result', mount', fault, logs, -, -, hrun⟩
    · rw [hrun] at hok
      contradiction
    · rw [hrun] at hok
      contradiction
  · rcases hsecond with
      ⟨fault, mount', hsave', hrun⟩ | ⟨result', mount', fault, logs, hsave', hsame, hrun⟩
    · rw [hrun] at hfail
      cases hfail
      obtain ⟨world'', hgrows', rfl⟩ := run_save_eq_error hsave'
      refine ⟨fun _ _ _ => Iff.rfl, hgrowsMount.trans hgrows', ?_⟩
      intro id
      change ¬ Logged state.peer.logs id _ mount.inner.link
      rw [hlink]
      exact hfirstUnlogged _ _
    · rw [hrun] at hfail
      cases hfail
      obtain ⟨manifest', world'', hversion', -, hmount'⟩ := run_save_eq_ok hsave'
      have hsaved' := savedVersion_of_saveVersion hversion'
      have hsecondUnlogged := hsaved'.not_logged
        (hfresh.grows (fun _ _ _ => Iff.rfl) hgrowsMount)
      subst hmount'
      refine ⟨hsame, hgrowsMount.trans hsaved'.grows, ?_⟩
      intro id hlogged
      exact hsecondUnlogged id _ ((hsame id _ _).mp hlogged)

/-- No turn changes the entries of the log. -/
theorem sameEntries_of_refreshed {state after : PeerMount σ} {refresh : Refresh}
    (hfresh : FreshLog state.peer.logs state.peer.world)
    (hrefreshed : Refreshed env fuel bucketId state refresh after) :
    SameEntries state.peer.logs after.peer.logs ∧
      Grows state.peer.world after.peer.world := by
  cases hrefreshed with
  | reloaded hempty hhead => exact ⟨fun _ _ _ => Iff.rfl, Grows.refl _⟩
  | merged hpending hhead hmerge hsave =>
      obtain ⟨hsame, hgrows, -⟩ := merged_not_logged hfresh hmerge hsave
      exact ⟨hsame, hgrows⟩
  | mergeFailed hpending hhead hmerge hreload =>
      obtain ⟨mount, hmergeMount, rfl⟩ := run_onMount_eq_error hmerge
      exact ⟨fun _ _ _ => Iff.rfl, (mountGrows_mergeFrom _ _ _).of_error hmergeMount⟩

/-- A call that returns has not changed the entries of the log. -/
theorem sameEntries_of_onBucketSynced {order : List Uuid} {state state' : ManagerState σ}
    (hfresh : FreshLog state.peer.logs state.peer.world)
    (hrun : (onBucketSynced env fuel bucketId order).run state = .ok () state') :
    SameEntries state.peer.logs state'.peer.logs ∧
      Grows state.peer.world state'.peer.world := by
  induction order generalizing state with
  | nil =>
      cases hrun
      exact ⟨fun _ _ _ => Iff.rfl, Grows.refl _⟩
  | cons first rest ih =>
      rw [onBucketSynced] at hrun
      obtain ⟨_, middle, hturn, hrest⟩ := EStateM.run_bind_eq_ok_iff.mp hrun
      have hmiddle : SameEntries state.peer.logs middle.peer.logs ∧
          Grows state.peer.world middle.peer.world := by
        cases hlive : state.mounts.get? first with
        | none =>
            rw [run_syncMount, hlive] at hturn
            cases hturn
            exact ⟨fun _ _ _ => Iff.rfl, Grows.refl _⟩
        | some live =>
            by_cases hbucket : live.bucketId = bucketId
            · obtain ⟨refresh, after, hrefresh, rfl⟩ :=
                run_syncMount_eq_ok hlive hbucket hturn
              exact @sameEntries_of_refreshed _ _ _ _ _ _ _ _ ⟨state.peer, live.mount⟩
                _ _ hfresh (refreshed_of_run hrefresh)
            · rw [run_syncMount, hlive] at hturn
              dsimp only at hturn
              rw [if_neg hbucket] at hturn
              cases hturn
              exact ⟨fun _ _ _ => Iff.rfl, Grows.refl _⟩
      obtain ⟨hsame, hgrows⟩ := hmiddle
      obtain ⟨hsame', hgrows'⟩ := ih (hfresh.grows hsame hgrows) hrest
      exact ⟨fun id height link => (hsame' id height link).trans (hsame id height link),
        hgrows.trans hgrows'⟩

/-- A mount that a call has merged is at a version the log does not have, at any
height or in any bucket. -/
theorem onBucketSynced_merged_not_logged (env : PeerEnv) (fuel : ℕ)
    (bucketId mountId : Uuid) (order rest : List Uuid) (hnot : mountId ∉ rest)
    (state before state' : ManagerState σ) (live : LiveMount) (incoming : MountInner)
    (result : MergeResult) (link : Link) (middle : PeerMount σ)
    (hfresh : FreshLog state.peer.logs state.peer.world)
    (hbefore : (onBucketSynced env fuel bucketId order).run state = .ok () before)
    (hlive : before.mounts.get? mountId = some live) (hbucket : live.bucketId = bucketId)
    (hpending : live.mount.opsLog.isEmpty = false)
    (hhead : before.peer.mountHead env bucketId = .ok incoming)
    (hmerge : (onMount (mergeFrom fuel incoming (conflictFile 8))).run
      ⟨before.peer, live.mount⟩ = .ok (result, link) middle)
    (hrun : (onBucketSynced env fuel bucketId (order ++ mountId :: rest)).run state =
      .ok () state') :
    ∃ live', state'.mounts.get? mountId = some live' ∧
      ¬ Logged state'.peer.logs live'.mount.manifest.id live'.mount.height
        live'.mount.link := by
  obtain ⟨hsame, hgrows⟩ := sameEntries_of_onBucketSynced hfresh hbefore
  have hfreshBefore := hfresh.grows hsame hgrows
  obtain ⟨refresh, after, hrefresh, hrest⟩ :=
    turn_of_onBucketSynced hbefore hlive hbucket hrun
  obtain ⟨live', hlive', hmount⟩ := mount_after_turn hnot hrest
  refine ⟨live', hlive', ?_⟩
  rw [hmount]
  have hrefreshed := refreshed_of_run hrefresh
  obtain ⟨hsameTurn, hgrowsTurn⟩ :=
    @sameEntries_of_refreshed _ _ _ _ _ _ _ _ ⟨before.peer, live.mount⟩ _ _ hfreshBefore
      hrefreshed
  have hsameRest := (@sameEntries_of_onBucketSynced _ _ _ _ _ _ _ _ _
    (before.afterTurn mountId live after) _ (hfreshBefore.grows hsameTurn hgrowsTurn)
    hrest).1
  intro hlogged
  have hloggedAfter := (hsameRest _ _ _).mp hlogged
  cases hrefreshed with
  | reloaded hempty _ =>
      rw [hempty] at hpending
      contradiction
  | merged _ hhead' hmerge' hsave =>
      exact (merged_not_logged hfreshBefore hmerge' hsave).2.2 _ hloggedAfter
  | mergeFailed _ hhead' hmerge' hreload =>
      rw [hhead] at hhead'
      cases hhead'
      rw [hmerge] at hmerge'
      contradiction

end

namespace Reference

theorem newBucket_logged_iff (id : Uuid) (height : ℕ) (link : Link) :
    Logged newBucket.peer.logs id height link ↔
      id = ⟨7⟩ ∧ height = 0 ∧ link = newBucket.inner.link := by
  have hok : ((init ⟨7⟩ "docs".toList alice).run emptyWorld).okAnd (fun _ => true) =
      true := by
    decide +kernel
  obtain ⟨inner, world, hrun, -⟩ := EStateM.Result.exists_of_okAnd hok
  have hbucket : newBucket = ⟨⟨world, (append MemoryBucketLogProvider.new ⟨7⟩
      "docs".toList inner.link none 0 false).2, []⟩, inner⟩ := by
    unfold newBucket
    rw [hrun]
  have happend : append MemoryBucketLogProvider.new ⟨7⟩ "docs".toList inner.link none 0
      false = (.ok (), (append MemoryBucketLogProvider.new ⟨7⟩ "docs".toList inner.link none
        0 false).2) :=
    Prod.ext (MemoryBucketLogProviderInner.append_of_none rfl) rfl
  have hempty : ¬ Logged MemoryBucketLogProvider.new id height link := by
    rw [MemoryBucketLogProvider.logged_iff]
    exact List.not_mem_nil
  have hlogged := LawfulBucketLogProvider.logged_append happend id height link
  rw [hbucket]
  exact hlogged.trans (or_iff_right hempty)

/-- The mount of the first version with a directory made in it. -/
def editedBucket : PeerMount MemoryBucketLogProvider :=
  ((onMount (mkdir (absPath ["a".toList]))).run newBucket).state

theorem logs_onMount {α : Type} (x : MountM α) (state : PeerMount MemoryBucketLogProvider) :
    ((onMount x).run state).state.peer.logs = state.peer.logs := by
  cases hrun : x.run state.mount with
  | ok a mount =>
      rw [run_onMount_of_ok hrun]
      rfl
  | error fault mount =>
      rw [run_onMount_of_error hrun]
      rfl

theorem editedBucket_logged_iff (id : Uuid) (height : ℕ) (link : Link) :
    Logged editedBucket.peer.logs id height link ↔
      id = ⟨7⟩ ∧ height = 0 ∧ link = newBucket.inner.link := by
  rw [← newBucket_logged_iff, editedBucket, logs_onMount]

theorem editedBucket_fresh :
    FreshLog editedBucket.peer.logs editedBucket.peer.world := by
  have hfacts : (editedBucket.peer.world.blobs newBucket.inner.link.hash).isSome = true ∧
      (getManifestFromBlobs editedBucket.peer.world.blobs
        newBucket.inner.link).toOption.map (fun manifest => manifest.entry.hash.bytes.head?)
          = some (some 1) ∧
      2 ≤ editedBucket.peer.world.rng := by
    decide +kernel
  obtain ⟨hstored, hentry, hrng⟩ := hfacts
  constructor
  · intro id height link hlogged
    obtain ⟨-, -, rfl⟩ := (editedBucket_logged_iff id height link).mp hlogged
    exact Option.isSome_iff_exists.mp hstored
  · intro id height link manifest hlogged hmanifest draw hdraw
    obtain ⟨-, -, rfl⟩ := (editedBucket_logged_iff id height link).mp hlogged
    rw [hmanifest] at hentry
    apply hash_ne_of_head (Option.some.inj hentry)
    change 1 < min draw 255
    omega

/-- The head is the version of the mount, so the merge has nothing to bring in. -/
theorem editedBucket_merges :
    editedBucket.inner.opsLog.isEmpty = false ∧
      ∃ incoming, editedBucket.peer.mountHead aliceEnv ⟨7⟩ = .ok incoming ∧
        editedBucket.inner.findCommonAncestor incoming editedBucket.peer.world.blobs 2 =
          .ok (some editedBucket.inner.link) ∧
        ∃ result link middle, (onMount (mergeFrom 2 incoming (conflictFile 8))).run
          editedBucket = .ok (result, link) middle := by
  have hfacts : editedBucket.inner.opsLog.isEmpty = false ∧
      (editedBucket.peer.mountHead aliceEnv ⟨7⟩).toOption.map (fun incoming =>
        decide (editedBucket.inner.findCommonAncestor incoming
          editedBucket.peer.world.blobs 2 = .ok (some editedBucket.inner.link)) &&
        ((onMount (mergeFrom 2 incoming (conflictFile 8))).run editedBucket).okAnd
          (fun _ => true)) = some true := by
    decide +kernel
  generalize editedBucket = bucket at hfacts ⊢
  obtain ⟨hpending, hmerge⟩ := hfacts
  refine ⟨hpending, ?_⟩
  obtain ⟨incoming, hincoming, hruns⟩ := Option.map_eq_some_iff.mp hmerge
  rw [Bool.and_eq_true] at hruns
  obtain ⟨⟨result, link⟩, middle, hrun, -⟩ := EStateM.Result.exists_of_okAnd hruns.2
  exact ⟨incoming, Except.eq_ok_of_toOption hincoming, of_decide_eq_true hruns.1, result,
    link, middle, hrun⟩

theorem editedBucket_synced :
    ((onBucketSynced aliceEnv 2 ⟨7⟩ [⟨1⟩]).run (managerOf editedBucket)).okAnd
      (fun state => (state.mounts.get? ⟨1⟩).any (fun live => decide (live.mount.link ∉
        state.peer.logs.inner.linksAt ⟨7⟩ live.mount.height))) = true := by
  decide +kernel

/-- The mount is in the log at its height before the call, and not after it. -/
theorem editedBucket_leaves_log :
    Logged editedBucket.peer.logs ⟨7⟩ editedBucket.inner.height editedBucket.inner.link ∧
      (∃ incoming, editedBucket.peer.mountHead aliceEnv ⟨7⟩ = .ok incoming ∧
        editedBucket.inner.findCommonAncestor incoming editedBucket.peer.world.blobs 2 =
          .ok (some editedBucket.inner.link) ∧
        ∃ result link middle, (onMount (mergeFrom 2 incoming (conflictFile 8))).run
          editedBucket = .ok (result, link) middle) ∧
      ∃ state' live', (onBucketSynced aliceEnv 2 ⟨7⟩ [⟨1⟩]).run (managerOf editedBucket) =
          .ok () state' ∧
        state'.mounts.get? ⟨1⟩ = some live' ∧
        ¬ Logged state'.peer.logs ⟨7⟩ live'.mount.height live'.mount.link := by
  have hbefore : editedBucket.inner.height = 0 ∧
      editedBucket.inner.link = newBucket.inner.link := by
    decide +kernel
  have hlogged := (editedBucket_logged_iff ⟨7⟩ editedBucket.inner.height
    editedBucket.inner.link).mpr ⟨rfl, hbefore⟩
  refine ⟨hlogged, editedBucket_merges.2, ?_⟩
  have hsynced := editedBucket_synced
  generalize editedBucket = bucket at hsynced ⊢
  obtain ⟨_, state', hrun, htest⟩ := EStateM.Result.exists_of_okAnd hsynced
  obtain ⟨live', hlive', hunlogged⟩ := (Option.any_eq_true _ _).mp htest
  refine ⟨state', live', hrun, hlive', ?_⟩
  rw [MemoryBucketLogProvider.logged_iff]
  exact of_decide_eq_true hunlogged

/-- The same, for every bucket and height, from the general result. -/
theorem editedBucket_not_logged :
    ∃ state' live', (onBucketSynced aliceEnv 2 ⟨7⟩ [⟨1⟩]).run (managerOf editedBucket) =
        .ok () state' ∧
      state'.mounts.get? ⟨1⟩ = some live' ∧
      ¬ Logged state'.peer.logs live'.mount.manifest.id live'.mount.height
        live'.mount.link := by
  have hfresh := editedBucket_fresh
  have hsynced := editedBucket_synced
  obtain ⟨hpending, incoming, hhead, -, result, link, middle, hmerge⟩ := editedBucket_merges
  generalize editedBucket = bucket at *
  obtain ⟨_, state', hrun, -⟩ := EStateM.Result.exists_of_okAnd hsynced
  obtain ⟨live', hlive', hunlogged⟩ := onBucketSynced_merged_not_logged aliceEnv 2 ⟨7⟩ ⟨1⟩
    [] [] (by simp) (managerOf bucket) (managerOf bucket) state' _ incoming result link
    middle hfresh rfl (FinMap.get?_put_self _ _ _) rfl hpending hhead hmerge hrun
  exact ⟨state', live', hrun, hlive', hunlogged⟩

end Reference

end JaxFs

import JaxFs.DaemonSync

/-!
# What a running filesystem serves after a sync

A sync brings the mount of a running filesystem up to date, and the cache it invalidates is
not the one that the filesystem answers from.  So what was cached before the sync is served
after it, and the filesystem answers from the new mount only if nothing was cached.  With a
listener on the right cache every sync would reach the filesystem.
-/

namespace JaxFs

open Fuse BucketLogProvider

/-! ## Cached entries -/

inductive CacheEntry where
  | content (path : Name) (content : CachedContent)
  | attr (path : Name) (attr : CachedAttr)
  | dir (path : Name) (entries : List CachedDirEntry)

/-- The cache answers a fetch with the entry. -/
def FileCache.Serves (cache : FileCache) : CacheEntry → Prop
  | .content path content => cache.getContent path = some content
  | .attr path attr => cache.getAttr path = some attr
  | .dir path entries => cache.getDir path = some entries

theorem not_serves_empty (entry : CacheEntry) : ¬ FileCache.empty.Serves entry := by
  intro hserves
  cases entry <;> contradiction

namespace Fuse

section

variable [P : Primitives]

/-- The answer depends on the mount alone. -/
def AnswersByMount {α : Type} (x : FuseM α) : Prop :=
  ∀ fs fs' a after, fs'.mount = fs.mount → x.run fs = .ok a after →
    ∃ after', x.run fs' = .ok a after' ∧ after'.mount = after.mount

theorem ReadsMount.answersByMount {α : Type} {x : FuseM α} (h : ReadsMount x) :
    AnswersByMount x := by
  intro fs fs' a after hmount hrun
  have hafter := h.state fs a after hrun
  subst hafter
  exact ⟨fs', h.congr _ fs' a hmount hrun, hmount⟩

theorem answersByMount_pure {α : Type} (a : α) : AnswersByMount (pure a : FuseM α) :=
  (readsMount_pure a).answersByMount

theorem answersByMount_modifyCache (f : FileCache → FileCache) :
    AnswersByMount (modifyCache f) := by
  intro fs fs' a after hmount hrun
  cases hrun
  exact ⟨_, rfl, hmount⟩

theorem AnswersByMount.bind {α β : Type} {x : FuseM α} {f : α → FuseM β}
    (hx : AnswersByMount x) (hf : ∀ a, AnswersByMount (f a)) : AnswersByMount (x >>= f) := by
  intro fs fs' b after hmount hrun
  obtain ⟨a, middle, hfirst, hrest⟩ := EStateM.run_bind_eq_ok_iff.mp hrun
  obtain ⟨middle', hfirst', hmiddle⟩ := hx fs fs' a middle hmount hfirst
  obtain ⟨after', hrest', hafter⟩ := hf a middle middle' b after hmiddle hrest
  exact ⟨after', EStateM.run_bind_eq_ok_iff.mpr ⟨a, middle', hfirst', hrest'⟩, hafter⟩

variable {fs fs' : FuseFs}

theorem AnswersByMount.run_uncached {α : Type} {x : FuseM α} (hx : AnswersByMount x) {a : α}
    (hrun : x.run fs = .ok a fs') : ∃ after, x.run fs.uncached = .ok a after := by
  obtain ⟨after, hafter, -⟩ := hx fs fs.uncached a fs' rfl hrun
  exact ⟨after, hafter⟩

/-- What is not cached is fetched from the mount, whatever else is cached. -/
theorem fetchContent_uncached {path : Name} {found : Option CachedContent}
    (hmiss : fs.cache.getContent path = none)
    (hrun : (fetchContent path).run fs = .ok found fs') :
    ∃ after, (fetchContent path).run fs.uncached = .ok found after := by
  have hempty : fs.uncached.cache.getContent path = none := rfl
  unfold fetchContent at hrun ⊢
  rw [run_getThe_bind] at hrun ⊢
  simp only [hmiss] at hrun
  simp only [hempty]
  refine AnswersByMount.run_uncached ?_ hrun
  apply (readsMount_readMount _).answersByMount.bind
  intro result
  cases result with
  | error error => exact answersByMount_pure none
  | ok data => exact (answersByMount_modifyCache _).bind (fun _ => answersByMount_pure _)

theorem fetchAttr_uncached {now : ℤ} {path : Name} {found : Option CachedAttr}
    (hmiss : fs.cache.getAttr path = none)
    (hrun : (fetchAttr now path).run fs = .ok found fs') :
    ∃ after, (fetchAttr now path).run fs.uncached = .ok found after := by
  have hempty : fs.uncached.cache.getAttr path = none := rfl
  unfold fetchAttr at hrun ⊢
  rw [run_getThe_bind] at hrun ⊢
  simp only [hmiss] at hrun
  simp only [hempty]
  refine AnswersByMount.run_uncached ?_ hrun
  apply (readsMount_findAttr now path).answersByMount.bind
  intro result
  cases result with
  | none => exact answersByMount_pure none
  | some attr => exact (answersByMount_modifyCache _).bind (fun _ => answersByMount_pure _)

theorem fetchDir_uncached {path : Name} {found : Option (List CachedDirEntry)}
    (hmiss : fs.cache.getDir path = none)
    (hrun : (fetchDir path).run fs = .ok found fs') :
    ∃ after, (fetchDir path).run fs.uncached = .ok found after := by
  have hempty : fs.uncached.cache.getDir path = none := rfl
  unfold fetchDir at hrun ⊢
  rw [run_getThe_bind] at hrun ⊢
  simp only [hmiss] at hrun
  simp only [hempty]
  refine AnswersByMount.run_uncached ?_ hrun
  apply (readsMount_readMount _).answersByMount.bind
  intro result
  cases result with
  | error error => exact answersByMount_pure none
  | ok entries => exact (answersByMount_modifyCache _).bind (fun _ => answersByMount_pure _)

/-- No entry of before is served, and whatever is fetched is what the mount has. -/
structure SyncReaches (before after : FuseFs) : Prop where
  dropped : ∀ entry, before.cache.Serves entry → ¬ after.cache.Serves entry
  content : ∀ path found fs, (fetchContent path).run after = .ok found fs →
    ∃ fs', (fetchContent path).run after.uncached = .ok found fs'
  attrs : ∀ now path found fs, (fetchAttr now path).run after = .ok found fs →
    ∃ fs', (fetchAttr now path).run after.uncached = .ok found fs'
  dirs : ∀ path found fs, (fetchDir path).run after = .ok found fs →
    ∃ fs', (fetchDir path).run after.uncached = .ok found fs'

theorem syncReaches_of_empty {before after : FuseFs}
    (hempty : ∀ entry, ¬ after.cache.Serves entry) : SyncReaches before after where
  dropped entry _ := hempty entry
  content path found fs hrun := by
    cases hcached : after.cache.getContent path with
    | none => exact fetchContent_uncached hcached hrun
    | some content => exact absurd hcached (hempty (.content path content))
  attrs now path found fs hrun := by
    cases hcached : after.cache.getAttr path with
    | none => exact fetchAttr_uncached hcached hrun
    | some attr => exact absurd hcached (hempty (.attr path attr))
  dirs path found fs hrun := by
    cases hcached : after.cache.getDir path with
    | none => exact fetchDir_uncached hcached hrun
    | some entries => exact absurd hcached (hempty (.dir path entries))

/-- With the cache of before, the filesystem is up to date only if that cache was empty. -/
theorem syncReaches_iff {before after : FuseFs} (hcache : after.cache = before.cache) :
    SyncReaches before after ↔ ∀ entry, ¬ before.cache.Serves entry := by
  constructor
  · intro hreaches entry hserves
    apply hreaches.dropped entry hserves
    rw [hcache]
    exact hserves
  · intro hempty
    apply syncReaches_of_empty
    rw [hcache]
    exact hempty

end

end Fuse

section

variable [P : Primitives] {σ : Type}

/-! ## What a sync leaves alone -/

/-- No live mount comes or goes, and a cache that the manager does not hold stays. -/
structure SyncFrame (state state' : Daemon σ) : Prop where
  mounts : state'.mounts = state.mounts
  listeners : state'.listeners = state.listeners
  caches : ∀ cache, (∀ mountId, ¬ state.Holds (.manager mountId) cache) →
    state'.caches[cache]? = state.caches[cache]?

section

variable {state state' state'' : Daemon σ}

theorem SyncFrame.refl (state : Daemon σ) : SyncFrame state state :=
  ⟨rfl, rfl, fun _ _ => rfl⟩

theorem SyncFrame.trans (h : SyncFrame state state') (h' : SyncFrame state' state'') :
    SyncFrame state state'' where
  mounts := h'.mounts.trans h.mounts
  listeners := h'.listeners.trans h.listeners
  caches cache hfree := by
    have hfree' : ∀ mountId, ¬ state'.Holds (.manager mountId) cache := by
      intro mountId hholds
      rw [Daemon.Holds, h.mounts] at hholds
      exact hfree mountId hholds
    exact (h'.caches cache hfree').trans (h.caches cache hfree)

variable [BucketLogProvider σ] {env : PeerEnv} {fuel : ℕ} {bucketId mountId : Uuid}

theorem syncFrame_syncLive :
    EStateM.Preserves (@SyncFrame _ σ) (syncLive env fuel bucketId mountId) := by
  intro state
  rw [run_syncLive]
  cases hlive : state.mounts.get? mountId with
  | none => exact SyncFrame.refl state
  | some live =>
      dsimp only
      split_ifs
      · cases state.mountCells[live.mount]? with
        | none => exact SyncFrame.refl state
        | some inner =>
            dsimp only
            cases (refreshMount env fuel bucketId).run ⟨state.peer, inner⟩ with
            | error fault after => exact ⟨rfl, rfl, fun _ _ => rfl⟩
            | ok refresh after =>
                refine ⟨rfl, rfl, ?_⟩
                intro cache hfree
                have hne : live.cache ≠ cache := by
                  intro heq
                  exact hfree mountId ⟨live, hlive, heq⟩
                simp [hne]
      · exact SyncFrame.refl state

theorem syncFrame_bucketSynced (order : List Uuid) :
    EStateM.Preserves (@SyncFrame _ σ) (bucketSynced env fuel bucketId order) := by
  induction order with
  | nil => exact EStateM.Preserves.pure SyncFrame.refl ()
  | cons mountId rest ih =>
      exact EStateM.Preserves.bind (fun _ _ _ => SyncFrame.trans) syncFrame_syncLive
        (fun _ => ih)

end

/-! ## The manager alone -/

/-- What a live mount holds, without its session. -/
def Daemon.liveMount (state : Daemon σ) (live : LiveSession) : Option LiveMount :=
  match state.mountCells[live.mount]?, state.caches[live.cache]? with
  | some inner, some cache => some ⟨inner, cache, live.config.bucketId⟩
  | _, _ => none

/-- The daemon, seen without its filesystems and what they share. -/
structure Projects (state : Daemon σ) (manager : ManagerState σ) : Prop where
  peer : manager.peer = state.peer
  mounts : ∀ mountId,
    manager.mounts.get? mountId = (state.mounts.get? mountId).bind state.liveMount

def Daemon.manager (state : Daemon σ) : ManagerState σ where
  peer := state.peer
  mounts := FinMap.filterMapValues state.mounts state.liveMount
  events := []

theorem projects_manager (state : Daemon σ) : Projects state state.manager :=
  ⟨rfl, FinMap.get?_filterMapValues state.mounts state.liveMount⟩

section

variable {state state' : Daemon σ} {manager : ManagerState σ}

theorem Daemon.liveMount_of_cells {live : LiveSession} {inner : MountInner}
    {cache : FileCache} (hcell : state.mountCells[live.mount]? = some inner)
    (hcache : state.caches[live.cache]? = some cache) :
    state.liveMount live = some ⟨inner, cache, live.config.bucketId⟩ := by
  unfold Daemon.liveMount
  rw [hcell, hcache]

theorem Wired.cells (h : Wired state) {mountId : Uuid} {live : LiveSession}
    (hlive : state.mounts.get? mountId = some live) :
    ∃ inner cache, state.mountCells[live.mount]? = some inner ∧
      state.caches[live.cache]? = some cache :=
  ⟨_, _, List.getElem?_eq_getElem (h.mount_lt mountId live hlive),
    List.getElem?_eq_getElem (h.cache_lt (.manager mountId) live.cache ⟨live, hlive, rfl⟩)⟩

/-- The turn of a live mount leaves the others as they are. -/
theorem Projects.afterTurn (h : Projects state manager) (hwired : Wired state)
    {mountId : Uuid} {live : LiveSession} (hlive : state.mounts.get? mountId = some live)
    {inner : MountInner} {cache : FileCache}
    (hcell : state.mountCells[live.mount]? = some inner)
    (hcache : state.caches[live.cache]? = some cache) (after : PeerMount σ) :
    Projects (state.afterTurn mountId live after)
      (manager.afterTurn mountId ⟨inner, cache, live.config.bucketId⟩ after) := by
  refine ⟨rfl, ?_⟩
  intro other
  have hmounts : (state.afterTurn mountId live after).mounts = state.mounts := rfl
  rw [ManagerState.afterTurn, FinMap.get?_put, hmounts]
  split_ifs with heq
  · subst heq
    rw [hlive, Option.bind_some]
    symm
    apply Daemon.liveMount_of_cells
    · simp [(List.getElem?_eq_some_iff.mp hcell).1]
    · simp [hcache]
  · rw [h.mounts]
    cases hother : state.mounts.get? other with
    | none => rfl
    | some live' =>
        have hmount : live.mount ≠ live'.mount := by
          intro hsame
          exact heq (hwired.apart mountId other live live' hlive hother hsame)
        have hcaches : live.cache ≠ live'.cache := by
          intro hsame
          have hholder := hwired.unshared (.manager mountId) (.manager other) live.cache
            ⟨live, hlive, rfl⟩ ⟨live', hother, hsame.symm⟩
          cases hholder
          exact heq rfl
        simp [Daemon.liveMount, List.getElem?_set_ne hmount, List.getElem?_modify, hcaches]

variable [BucketLogProvider σ] {env : PeerEnv} {fuel : ℕ} {bucketId : Uuid}

theorem Projects.syncLive (h : Projects state manager) (hwired : Wired state)
    {mountId : Uuid}
    (hrun : (syncLive env fuel bucketId mountId).run state = .ok () state') :
    ∃ manager', (syncMount env fuel bucketId mountId).run manager = .ok () manager' ∧
      Projects state' manager' := by
  rw [run_syncLive] at hrun
  rw [run_syncMount, h.mounts]
  cases hlive : state.mounts.get? mountId with
  | none =>
      rw [hlive] at hrun
      cases hrun
      exact ⟨manager, rfl, h⟩
  | some live =>
      obtain ⟨inner, cache, hcell, hcache⟩ := hwired.cells hlive
      rw [hlive] at hrun
      rw [Option.bind_some, Daemon.liveMount_of_cells hcell hcache]
      dsimp only at hrun ⊢
      rw [hcell] at hrun
      dsimp only at hrun
      split_ifs at hrun ⊢ with hbucket
      · rw [h.peer]
        cases hrefresh : (refreshMount env fuel bucketId).run ⟨state.peer, inner⟩ with
        | error fault after =>
            rw [hrefresh] at hrun
            contradiction
        | ok refresh after =>
            rw [hrefresh] at hrun
            cases hrun
            exact ⟨_, rfl, h.afterTurn hwired hlive hcell hcache after⟩
      · cases hrun
        exact ⟨manager, rfl, h⟩

/-- A sync of the daemon is a sync of its manager. -/
theorem Projects.bucketSynced (h : Projects state manager) (hwired : Wired state)
    {order : List Uuid}
    (hrun : (bucketSynced env fuel bucketId order).run state = .ok () state') :
    ∃ manager', (onBucketSynced env fuel bucketId order).run manager = .ok () manager' ∧
      Projects state' manager' := by
  induction order generalizing state manager with
  | nil =>
      cases hrun
      exact ⟨manager, rfl, h⟩
  | cons mountId rest ih =>
      obtain ⟨_, middle, hturn, hrest⟩ := EStateM.run_bind_eq_ok_iff.mp hrun
      obtain ⟨manager', hturn', hmiddle⟩ := h.syncLive hwired hturn
      have hwired' := hwired.keeps (keepsWiring_syncLive.of_ok hturn)
      obtain ⟨manager'', hrest', hafter⟩ := ih hmiddle hwired' hrest
      refine ⟨manager'', ?_, hafter⟩
      rw [onBucketSynced, EStateM.run_bind_of_ok hturn']
      exact hrest'

end

end

section

variable [P : Primitives] {σ : Type} [BucketLogProvider σ]

/-! ## Syncs of a running filesystem -/

theorem bucketSynced_append {env : PeerEnv} {fuel : ℕ} {bucketId : Uuid}
    (order rest : List Uuid) :
    bucketSynced env fuel bucketId (order ++ rest) = (do
      bucketSynced env fuel bucketId order
      bucketSynced env fuel bucketId rest : DaemonM σ Unit) := by
  induction order with
  | nil => simp [bucketSynced]
  | cons first order ih => simp [bucketSynced, ih]

/-- The turn of the mount in a call of `on_bucket_synced` takes it from the one state to
the other. -/
def RefreshedTo (env : PeerEnv) (fuel : ℕ) (bucketId : Uuid) (order : List Uuid)
    (mountId : Uuid) (state : Daemon σ) (inner inner' : MountInner) : Prop :=
  ∃ first rest middle refresh after, order = first ++ mountId :: rest ∧
    (bucketSynced env fuel bucketId first).run state = .ok () middle ∧
    (refreshMount env fuel bucketId).run ⟨middle.peer, inner⟩ = .ok refresh after ∧
    after.inner = inner'

theorem refreshedTo_of_bucketSynced {env : PeerEnv} {fuel : ℕ} {bucketId : Uuid}
    {order : List Uuid} {mountId : Uuid} {state synced : Daemon σ} (hwired : Wired state)
    {live : LiveSession} (hlive : state.mounts.get? mountId = some live)
    (hbucket : live.config.bucketId = bucketId) {inner : MountInner}
    (hcell : state.mountCells[live.mount]? = some inner)
    (horder : order.Nodup) (hmem : mountId ∈ order)
    (hsync : (bucketSynced env fuel bucketId order).run state = .ok () synced) :
    ∃ inner', synced.mountCells[live.mount]? = some inner' ∧
      RefreshedTo env fuel bucketId order mountId state inner inner' := by
  obtain ⟨first, rest, rfl⟩ := List.append_of_mem hmem
  have hfirst : mountId ∉ first := by
    intro hin
    exact (List.disjoint_of_nodup_append horder) hin List.mem_cons_self
  have hrest : mountId ∉ rest := (List.nodup_cons.mp (List.nodup_append.mp horder).2.1).1
  -- the run up to the turn, and its projection
  have hsplit := hsync
  rw [bucketSynced_append] at hsplit
  obtain ⟨_, middle, hmiddle, -⟩ := EStateM.run_bind_eq_ok_iff.mp hsplit
  obtain ⟨manager, hmanager, hprojects⟩ :=
    (projects_manager state).bucketSynced hwired hmiddle
  obtain ⟨manager', hmanager', hprojects'⟩ :=
    (projects_manager state).bucketSynced hwired hsync
  obtain ⟨cell, cache, hcell', hcache⟩ := hwired.cells hlive
  cases hcell.symm.trans hcell'
  have hbefore : manager.mounts.get? mountId =
      some ⟨inner, cache, live.config.bucketId⟩ := by
    have hsame := (sameLive_onBucketSynced hfirst).of_ok hmanager
    rw [SameLive, (projects_manager state).mounts, hlive] at hsame
    rw [hsame]
    exact Daemon.liveMount_of_cells hcell hcache
  obtain ⟨refresh, after, hrefresh, hlater⟩ :=
    turn_of_onBucketSynced hmanager hbefore hbucket hmanager'
  obtain ⟨live', hlive', hmount⟩ := mount_after_turn hrest hlater
  rw [hprojects'.mounts, (syncFrame_bucketSynced _).of_ok hsync |>.mounts, hlive,
    Option.bind_some] at hlive'
  have hwired' := hwired.keeps ((keepsWiring_bucketSynced _).of_ok hsync)
  have hlive'' : synced.mounts.get? mountId = some live := by
    rw [((syncFrame_bucketSynced _).of_ok hsync).mounts, hlive]
  obtain ⟨inner', cache', hcell'', hcache'⟩ := hwired'.cells hlive''
  rw [Daemon.liveMount_of_cells hcell'' hcache'] at hlive'
  cases hlive'
  refine ⟨inner', hcell'', first, rest, middle, refresh, after, rfl, hmiddle, ?_, hmount.symm⟩
  rw [← hprojects.peer]
  exact hrefresh

/-- The daemon comes to the state from a start with no mounts. -/
def Reached (env : PeerEnv) (state : Daemon σ) : Prop :=
  ∃ (peer : PeerState σ) (actions : List (DaemonAction σ)),
    state = actions.foldl (Daemon.step env) (Daemon.new peer)

theorem reached_new (env : PeerEnv) (peer : PeerState σ) : Reached env (Daemon.new peer) :=
  ⟨peer, [], rfl⟩

theorem Reached.wired {env : PeerEnv} {state : Daemon σ} (h : Reached env state) :
    Wired state := by
  obtain ⟨peer, actions, rfl⟩ := h
  exact wired_of_run env peer actions

theorem Reached.step {env : PeerEnv} {state : Daemon σ} (h : Reached env state)
    (action : DaemonAction σ) : Reached env (state.step env action) := by
  obtain ⟨peer, actions, rfl⟩ := h
  exact ⟨peer, actions ++ [action], by simp⟩

omit [BucketLogProvider σ] in
theorem Daemon.running_eq_some_iff {state : Daemon σ} {mountId : Uuid} {fs : FuseFs} :
    state.running mountId = some fs ↔ ∃ live mounted, state.mounts.get? mountId = some live ∧
      live.session = some mounted ∧ state.view mounted = some fs := by
  unfold Daemon.running
  simp only [Option.bind_eq_some_iff]
  constructor
  · intro ⟨mounted, ⟨live, hlive, hsession⟩, hview⟩
    exact ⟨live, mounted, hlive, hsession, hview⟩
  · intro ⟨live, mounted, hlive, hsession, hview⟩
    exact ⟨mounted, ⟨live, hlive, hsession⟩, hview⟩

omit [BucketLogProvider σ] in
theorem Daemon.view_of_cells {state : Daemon σ} {fs : MountedFs} {inner : MountInner}
    {cache : FileCache} (hcell : state.mountCells[fs.mount]? = some inner)
    (hcache : state.caches[fs.cache]? = some cache) :
    state.view fs = some ⟨⟨state.peer.world, inner⟩, fs.mountId, fs.inodes,
      fs.writeBuffers, cache, fs.saveTx, fs.readOnly, fs.nextFh⟩ := by
  unfold Daemon.view
  rw [hcell, hcache]

omit [BucketLogProvider σ] in
theorem Daemon.cells_of_view {state : Daemon σ} {mounted : MountedFs} {fs : FuseFs}
    (hview : state.view mounted = some fs) :
    state.mountCells[mounted.mount]? = some fs.mount.inner ∧
      state.caches[mounted.cache]? = some fs.cache := by
  unfold Daemon.view at hview
  split at hview
  next inner cache hcell hcache =>
    cases hview
    exact ⟨hcell, hcache⟩
  next => contradiction

/-- In every state that the daemon reaches, a sync of the bucket of a running filesystem
brings its mount up to date, and the filesystem stops serving what it had cached exactly
when it had cached nothing. -/
theorem sync_reaches_running_iff (env : PeerEnv) (fuel : ℕ) (bucketId mountId : Uuid)
    (order : List Uuid) (state synced : Daemon σ) (live : LiveSession) (before : FuseFs)
    (hreached : Reached env state) (hlive : state.mounts.get? mountId = some live)
    (hbucket : live.config.bucketId = bucketId)
    (hbefore : state.running mountId = some before)
    (horder : order.Nodup) (hmem : mountId ∈ order)
    (hsync : (bucketSynced env fuel bucketId order).run state = .ok () synced) :
    ∃ after, synced.deliver.running mountId = some after ∧
      RefreshedTo env fuel bucketId order mountId state before.mount.inner
        after.mount.inner ∧
      (SyncReaches before after ↔ ∀ entry, ¬ before.cache.Serves entry) := by
  have hwired := hreached.wired
  obtain ⟨live', mounted, hlive', hsession, hview⟩ :=
    Daemon.running_eq_some_iff.mp hbefore
  cases hlive.symm.trans hlive'
  obtain ⟨hcell, hcache⟩ := Daemon.cells_of_view hview
  have hshared := (hwired.shared mountId live mounted hlive hsession).1
  rw [hshared] at hcell
  obtain ⟨inner', hcell', hrefreshed⟩ :=
    refreshedTo_of_bucketSynced hwired hlive hbucket hcell horder hmem hsync
  have hframe := (syncFrame_bucketSynced order).of_ok hsync
  -- the filesystem holds its cache, so the manager does not
  have hkept : synced.caches[mounted.cache]? = some before.cache := by
    rw [hframe.caches, hcache]
    intro other hholds
    have hholder := hwired.unshared (.manager other) (.session mountId) mounted.cache hholds
      ⟨live, mounted, hlive, hsession, rfl⟩
    contradiction
  have hquiet : synced.deliver = synced := by
    unfold Daemon.deliver
    rw [hframe.listeners, hwired.unheard]
    rfl
  have hcell'' : synced.mountCells[mounted.mount]? = some inner' := by
    rw [hshared]
    exact hcell'
  have hafter := Daemon.view_of_cells hcell'' hkept
  rw [hquiet]
  refine ⟨_, Daemon.running_eq_some_iff.mpr ⟨live, mounted, ?_, hsession, hafter⟩,
    hrefreshed, syncReaches_iff rfl⟩
  rw [hframe.mounts, hlive]

end

namespace Reference

/-- A daemon that has started a mount of the bucket. -/
def mountedDaemon : Daemon MemoryBucketLogProvider :=
  (Daemon.new newBucket.peer).step aliceEnv (.start (some ⟨⟨7⟩, false⟩) true ⟨1⟩)

/-- The daemon after the bucket has gone one version further. -/
def oneVersionOn (state : Daemon MemoryBucketLogProvider) : Daemon MemoryBucketLogProvider :=
  state.step aliceEnv (.others savedBucket.peer state.mountCells)

/-- The root of the mount is listed while it is empty. -/
def listedDaemon : Daemon MemoryBucketLogProvider :=
  mountedDaemon.step aliceEnv (.request ⟨1⟩ 0 (.readdir 1 0))

theorem reached_mountedDaemon : Reached aliceEnv mountedDaemon :=
  (reached_new aliceEnv newBucket.peer).step _

/-- The new version has a directory, but the filesystem still serves the empty listing. -/
theorem stale_listing_served :
    ∃ (state synced : Daemon MemoryBucketLogProvider) (live : LiveSession)
      (before after : FuseFs), Reached aliceEnv state ∧
      state.mounts.get? ⟨1⟩ = some live ∧ live.config.bucketId = ⟨7⟩ ∧
      state.running ⟨1⟩ = some before ∧
      (bucketSynced aliceEnv 3 ⟨7⟩ [⟨1⟩]).run state = .ok () synced ∧
      synced.deliver.running ⟨1⟩ = some after ∧
      before.cache.Serves (.dir ['/'] []) ∧ after.cache.Serves (.dir ['/'] []) ∧
      (∃ entry fs, (fetchDir ['/']).run after.uncached = .ok (some [entry]) fs) ∧
      ¬ SyncReaches before after := by
  have htest : (((oneVersionOn listedDaemon).mounts.get? ⟨1⟩).any
        (fun live => decide (live.config.bucketId = ⟨7⟩)) &&
      ((oneVersionOn listedDaemon).running ⟨1⟩).any
        (fun before => decide ((before.cache.getDir ['/']).map List.length = some 0)) &&
      ((bucketSynced aliceEnv 3 ⟨7⟩ [⟨1⟩]).run (oneVersionOn listedDaemon)).okWith
        (fun _ synced => (synced.deliver.running ⟨1⟩).any (fun after =>
          decide ((after.cache.getDir ['/']).map List.length = some 0) &&
            ((fetchDir ['/']).run after.uncached).okWith (fun found _ =>
              decide (found.map List.length = some 1))))) = true := by
    decide +kernel
  have hreached : Reached aliceEnv (oneVersionOn listedDaemon) :=
    (reached_mountedDaemon.step _).step _
  generalize oneVersionOn listedDaemon = state at htest hreached
  simp only [Bool.and_eq_true, Option.any_eq_true, decide_eq_true_eq] at htest
  obtain ⟨⟨⟨live, hlive, hbucket⟩, before, hbefore, hlisted⟩, hsync⟩ := htest
  obtain ⟨_, synced, hrun, hsync⟩ := EStateM.Result.exists_of_okWith hsync
  simp only [Bool.and_eq_true, Option.any_eq_true, decide_eq_true_eq] at hsync
  obtain ⟨after, hafter, hstale, hfresh⟩ := hsync
  obtain ⟨found, fs, hfetch, hlength⟩ := EStateM.Result.exists_of_okWith hfresh
  have hserves : ∀ cache : FileCache, (cache.getDir ['/']).map List.length = some 0 →
      cache.Serves (.dir ['/'] []) := by
    intro cache hcache
    obtain ⟨entries, hentries, hnone⟩ := Option.map_eq_some_iff.mp hcache
    rw [List.length_eq_zero_iff] at hnone
    rw [FileCache.Serves, hentries, hnone]
  refine ⟨state, synced, live, before, after, hreached, hlive, hbucket, hbefore, hrun, hafter,
    hserves _ hlisted, hserves _ hstale, ?_, ?_⟩
  · rw [decide_eq_true_eq] at hlength
    obtain ⟨entries, rfl, hone⟩ := Option.map_eq_some_iff.mp hlength
    obtain ⟨entry, rfl⟩ := List.length_eq_one_iff.mp hone
    exact ⟨entry, fs, hfetch⟩
  · intro hreaches
    exact hreaches.dropped _ (hserves _ hlisted) (hserves _ hstale)

/-- Nothing has been read through the mount when the sync comes, and the sync reaches it. -/
theorem unread_mount_synced :
    ∃ (state synced : Daemon MemoryBucketLogProvider) (before after : FuseFs),
      Reached aliceEnv state ∧ state.running ⟨1⟩ = some before ∧
      (bucketSynced aliceEnv 3 ⟨7⟩ [⟨1⟩]).run state = .ok () synced ∧
      synced.deliver.running ⟨1⟩ = some after ∧ SyncReaches before after := by
  have htest : (((oneVersionOn mountedDaemon).mounts.get? ⟨1⟩).any
        (fun live => decide (live.config.bucketId = ⟨7⟩)) &&
      ((oneVersionOn mountedDaemon).running ⟨1⟩).any (fun before =>
        before.cache.content.isEmpty && before.cache.attrs.isEmpty &&
          before.cache.dirs.isEmpty) &&
      ((bucketSynced aliceEnv 3 ⟨7⟩ [⟨1⟩]).run (oneVersionOn mountedDaemon)).okWith
        (fun _ _ => true)) = true := by
    decide +kernel
  have hreached : Reached aliceEnv (oneVersionOn mountedDaemon) := reached_mountedDaemon.step _
  generalize oneVersionOn mountedDaemon = state at htest hreached
  simp only [Bool.and_eq_true, Option.any_eq_true, decide_eq_true_eq] at htest
  obtain ⟨⟨⟨live, hlive, hbucket⟩, before, hbefore, ⟨hcontent, hattrs⟩, hdirs⟩, hsync⟩ := htest
  obtain ⟨_, synced, hrun, -⟩ := EStateM.Result.exists_of_okWith hsync
  have hempty : before.cache = FileCache.empty := by
    cases hcache : before.cache with
    | mk content attrs dirs =>
        rw [hcache] at hcontent hattrs hdirs
        rw [KeyedMap.isEmpty_iff] at hcontent hattrs hdirs
        dsimp only at hcontent hattrs hdirs
        rw [hcontent, hattrs, hdirs]
        rfl
  obtain ⟨after, hafter, -, hiff⟩ := sync_reaches_running_iff aliceEnv 3 ⟨7⟩ ⟨1⟩ [⟨1⟩] state
    synced live before hreached hlive hbucket hbefore (by simp) (by simp) hrun
  refine ⟨state, synced, before, after, hreached, hbefore, hrun, hafter, hiff.mpr ?_⟩
  rw [hempty]
  exact not_serves_empty

end Reference

end JaxFs

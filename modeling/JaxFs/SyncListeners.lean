import JaxFs.StaleCaches

/-!
# Listeners of the sync channel

What `spawn_sync_listener` does for a filesystem.  A sync announces the turn of each live
mount to every receiver.  A listener that comes to the announcement, or that was too late
for some event, empties its cache, so a filesystem with a listener serves the new mount.
-/

namespace JaxFs

open Fuse BucketLogProvider

/-! ## Receivers -/

/-- The receiver has the event, or was too late for one. -/
def Receiver.Notices (mountId : Uuid) (receiver : Receiver) : Prop :=
  receiver.missed ≠ 0 ∨ SyncEvent.mountInvalidated mountId ∈ receiver.pending

theorem Receiver.notices_push_self (mountId : Uuid) (receiver : Receiver) :
    (receiver.push (.mountInvalidated mountId)).Notices mountId := by
  unfold Receiver.push
  split_ifs
  · right
    simp
  · left
    simp

theorem Receiver.Notices.push {mountId : Uuid} {receiver : Receiver}
    (h : receiver.Notices mountId) (event : SyncEvent) :
    (receiver.push event).Notices mountId := by
  unfold Receiver.push
  split_ifs
  · rcases h with hmissed | hpending
    · exact Or.inl hmissed
    · exact Or.inr (List.mem_append_left _ hpending)
  · left
    simp

theorem Receiver.Notices.invalidates {listener : SyncListener} {receiver : Receiver}
    (h : receiver.Notices listener.mountId) :
    receiver.received.filter listener.invalidates ≠ [] := by
  rw [ne_eq, List.filter_eq_nil_iff]
  intro hnone
  unfold Receiver.received at hnone
  split_ifs at hnone with hmissed
  · rcases h with hlate | hpending
    · exact hlate hmissed
    · have hevent := hnone _ (List.mem_map_of_mem hpending)
      simp [SyncListener.invalidates] at hevent
  · exact hnone (.lagged receiver.missed) List.mem_cons_self rfl

/-- A cell that is invalidated once or more is empty. -/
theorem getElem?_foldl_invalidateAll {α : Type} (cell : ℕ) (events : List α)
    {caches : List FileCache} {cache : FileCache} (hcell : caches[cell]? = some cache) :
    (events.foldl (fun caches _ => caches.modify cell FileCache.invalidateAll) caches)[cell]? =
      some (if events = [] then cache else FileCache.empty) := by
  induction events generalizing caches cache with
  | nil => simpa using hcell
  | cons event rest ih =>
      have hmodified : (caches.modify cell FileCache.invalidateAll)[cell]? =
          some FileCache.empty := by
        simp [hcell, FileCache.invalidateAll, FileCache.empty]
      rw [List.foldl_cons, ih hmodified]
      simp

theorem getElem?_foldl_modify_of_ne {α : Type} {cell other : ℕ} (hne : other ≠ cell)
    (events : List α) (caches : List FileCache) :
    (events.foldl (fun caches _ => caches.modify other FileCache.invalidateAll) caches)[cell]? =
      caches[cell]? := by
  induction events generalizing caches with
  | nil => rfl
  | cons event rest ih =>
      rw [List.foldl_cons, ih]
      simp [hne]

/-! ## Deliveries -/

section

variable [P : Primitives] {σ : Type} {state state' synced : Daemon σ} {mountId : Uuid} {rx : ℕ}

def Announced (state : Daemon σ) (rx : ℕ) (mountId : Uuid) : Prop :=
  ∃ receiver, state.receivers[rx]? = some receiver ∧ receiver.Notices mountId

/-- A listener leaves every cache as it was or empties it. -/
theorem listen_caches (state : Daemon σ) (listener : SyncListener) {cell : ℕ}
    {cache : FileCache} (hcell : state.caches[cell]? = some cache) :
    (state.listen listener).caches[cell]? = some cache ∨
      (state.listen listener).caches[cell]? = some FileCache.empty := by
  unfold Daemon.listen
  cases state.receivers[listener.rx]? with
  | none => exact Or.inl hcell
  | some receiver =>
      by_cases heq : listener.cache = cell
      · subst heq
        dsimp only
        rw [getElem?_foldl_invalidateAll _ _ hcell]
        split_ifs
        · exact Or.inl rfl
        · exact Or.inr rfl
      · left
        dsimp only
        rw [getElem?_foldl_modify_of_ne heq, hcell]

theorem listen_caches_of_announced {listener : SyncListener} {cache : FileCache}
    (hcell : state.caches[listener.cache]? = some cache)
    (hannounced : Announced state listener.rx listener.mountId) :
    (state.listen listener).caches[listener.cache]? = some FileCache.empty := by
  obtain ⟨receiver, hreceiver, hnotices⟩ := hannounced
  unfold Daemon.listen
  rw [hreceiver]
  dsimp only
  rw [getElem?_foldl_invalidateAll _ _ hcell, if_neg hnotices.invalidates]

theorem Announced.listen (h : Announced state rx mountId) {other : SyncListener}
    (hne : other.rx ≠ rx) : Announced (state.listen other) rx mountId := by
  unfold Daemon.listen
  cases state.receivers[other.rx]? with
  | none => exact h
  | some receiver =>
      obtain ⟨receiver', hreceiver', hnotices⟩ := h
      refine ⟨receiver', ?_, hnotices⟩
      dsimp only
      rw [List.getElem?_set_ne hne, hreceiver']

theorem foldl_listen_empty (listeners : List SyncListener) {cell : ℕ}
    (hcell : state.caches[cell]? = some FileCache.empty) :
    (listeners.foldl Daemon.listen state).caches[cell]? = some FileCache.empty := by
  induction listeners generalizing state with
  | nil => exact hcell
  | cons listener rest ih =>
      apply ih
      rcases listen_caches state listener hcell with hsame | hempty
      · exact hsame
      · exact hempty

/-- A listener that has the event to come empties its cache. -/
theorem foldl_listen_of_announced {listeners : List SyncListener} {listener : SyncListener}
    (hmem : listener ∈ listeners) (hdistinct : (listeners.map SyncListener.rx).Nodup)
    {cache : FileCache} (hcell : state.caches[listener.cache]? = some cache)
    (hannounced : Announced state listener.rx listener.mountId) :
    (listeners.foldl Daemon.listen state).caches[listener.cache]? = some FileCache.empty := by
  induction listeners generalizing state cache with
  | nil => contradiction
  | cons first rest ih =>
      rw [List.map_cons, List.nodup_cons] at hdistinct
      rw [List.foldl_cons]
      rcases List.mem_cons.mp hmem with rfl | hrest
      · exact foldl_listen_empty rest (listen_caches_of_announced hcell hannounced)
      · have hne : first.rx ≠ listener.rx := by
          intro heq
          apply hdistinct.1
          rw [heq]
          exact List.mem_map_of_mem hrest
        rcases listen_caches state first hcell with hsame | hempty
        · exact ih hrest hdistinct.2 hsame (hannounced.listen hne)
        · exact foldl_listen_empty rest hempty

variable [BucketLogProvider σ] {env : PeerEnv} {fuel : ℕ} {bucketId : Uuid}

/-! ## Announcements -/

/-- Receivers stay, and keep what they have. -/
structure KeepsNotices (state state' : Daemon σ) : Prop where
  length : state'.receivers.length = state.receivers.length
  announced : ∀ rx mountId, Announced state rx mountId → Announced state' rx mountId

omit [BucketLogProvider σ] in
theorem KeepsNotices.refl (state : Daemon σ) : KeepsNotices state state :=
  ⟨rfl, fun _ _ h => h⟩

omit [BucketLogProvider σ] in
theorem KeepsNotices.trans (state state' state'' : Daemon σ) (h : KeepsNotices state state')
    (h' : KeepsNotices state' state'') : KeepsNotices state state'' :=
  ⟨h'.length.trans h.length, fun rx mountId hannounced =>
    h'.announced rx mountId (h.announced rx mountId hannounced)⟩

theorem keepsNotices_syncLive :
    EStateM.Preserves (@KeepsNotices _ σ) (syncLive env fuel bucketId mountId) := by
  intro state
  rw [run_syncLive]
  cases state.mounts.get? mountId with
  | none => exact KeepsNotices.refl state
  | some live =>
      dsimp only
      split_ifs
      · cases state.mountCells[live.mount]? with
        | none => exact KeepsNotices.refl state
        | some inner =>
            dsimp only
            cases (refreshMount env fuel bucketId).run ⟨state.peer, inner⟩ with
            | error fault after => exact ⟨rfl, fun _ _ h => h⟩
            | ok refresh after =>
                refine ⟨by simp [Daemon.afterTurn, Daemon.send, Daemon.invalidateAll,
                  Daemon.refreshed], ?_⟩
                intro rx other ⟨receiver, hreceiver, hnotices⟩
                refine ⟨receiver.push (.mountInvalidated mountId), ?_, hnotices.push _⟩
                simp [Daemon.afterTurn, Daemon.send, Daemon.invalidateAll, Daemon.refreshed,
                  hreceiver]
      · exact KeepsNotices.refl state

theorem keepsNotices_bucketSynced (order : List Uuid) :
    EStateM.Preserves (@KeepsNotices _ σ) (bucketSynced env fuel bucketId order) := by
  induction order with
  | nil => exact EStateM.Preserves.pure KeepsNotices.refl ()
  | cons mountId rest ih =>
      exact EStateM.Preserves.bind KeepsNotices.trans keepsNotices_syncLive (fun _ => ih)

/-- The turn of a mount is announced to every receiver. -/
theorem announced_of_bucketSynced {order : List Uuid} {live : LiveSession}
    (hlive : state.mounts.get? mountId = some live) (hbucket : live.config.bucketId = bucketId)
    (hcell : live.mount < state.mountCells.length) (hrx : rx < state.receivers.length)
    (hmem : mountId ∈ order)
    (hsync : (bucketSynced env fuel bucketId order).run state = .ok () synced) :
    Announced synced rx mountId := by
  obtain ⟨first, rest, rfl⟩ := List.append_of_mem hmem
  rw [bucketSynced_append] at hsync
  obtain ⟨_, middle, hfirst, hsync⟩ := EStateM.run_bind_eq_ok_iff.mp hsync
  obtain ⟨_, middle', hturn, hrest⟩ := EStateM.run_bind_eq_ok_iff.mp hsync
  have hlive' : middle.mounts.get? mountId = some live := by
    rw [((syncFrame_bucketSynced _).of_ok hfirst).mounts, hlive]
  have hcell' : live.mount < middle.mountCells.length :=
    hcell.trans_le ((keepsWiring_bucketSynced _).of_ok hfirst).mountCells
  have hrx' : rx < middle.receivers.length := by
    rw [((keepsNotices_bucketSynced _).of_ok hfirst).length]
    exact hrx
  apply ((keepsNotices_bucketSynced rest).of_ok hrest).announced
  rw [run_syncLive, hlive'] at hturn
  dsimp only at hturn
  rw [if_pos hbucket, List.getElem?_eq_getElem hcell'] at hturn
  dsimp only at hturn
  cases hrefresh : (refreshMount env fuel bucketId).run
      ⟨middle.peer, middle.mountCells[live.mount]⟩ with
  | error fault after =>
      rw [hrefresh] at hturn
      contradiction
  | ok refresh after =>
      rw [hrefresh] at hturn
      cases hturn
      refine ⟨_, ?_, Receiver.notices_push_self mountId middle.receivers[rx]⟩
      simp [Daemon.afterTurn, Daemon.send, Daemon.invalidateAll, Daemon.refreshed, hrx']

omit [BucketLogProvider σ] in
theorem foldl_listen_mounts (listeners : List SyncListener) (state : Daemon σ) :
    (listeners.foldl Daemon.listen state).mounts = state.mounts ∧
      (listeners.foldl Daemon.listen state).mountCells = state.mountCells := by
  induction listeners generalizing state with
  | nil => exact ⟨rfl, rfl⟩
  | cons listener rest ih =>
      have hlisten : (state.listen listener).mounts = state.mounts ∧
          (state.listen listener).mountCells = state.mountCells := by
        unfold Daemon.listen
        cases state.receivers[listener.rx]? with
        | none => exact ⟨rfl, rfl⟩
        | some receiver => exact ⟨rfl, rfl⟩
      rw [List.foldl_cons, (ih _).1, (ih _).2]
      exact hlisten

/-- With a listener on the cache of a running filesystem, every sync of its bucket reaches
the filesystem. -/
theorem sync_reaches_listened {order : List Uuid} {live : LiveSession} {mounted : MountedFs}
    {before : FuseFs} (hlive : state.mounts.get? mountId = some live)
    (hbucket : live.config.bucketId = bucketId) (hsession : live.session = some mounted)
    (hshared : mounted.mount = live.mount) (hbefore : state.view mounted = some before)
    (hlistener : ⟨mounted.cache, mountId, rx⟩ ∈ state.listeners)
    (hrx : rx < state.receivers.length)
    (hdistinct : (state.listeners.map SyncListener.rx).Nodup) (hmem : mountId ∈ order)
    (hsync : (bucketSynced env fuel bucketId order).run state = .ok () synced) :
    ∃ after, synced.deliver.running mountId = some after ∧ SyncReaches before after := by
  obtain ⟨hcell, hcache⟩ := Daemon.cells_of_view hbefore
  have hcell_lt := (List.getElem?_eq_some_iff.mp hcell).1
  have hcache_lt := (List.getElem?_eq_some_iff.mp hcache).1
  have hframe := (syncFrame_bucketSynced order).of_ok hsync
  have hkeeps := (keepsWiring_bucketSynced order).of_ok hsync
  have hmounts := foldl_listen_mounts synced.listeners synced
  have hannounced : Announced synced rx mountId := by
    apply announced_of_bucketSynced hlive hbucket _ hrx hmem hsync
    rw [← hshared]
    exact hcell_lt
  obtain ⟨inner, hinner⟩ : ∃ inner, synced.deliver.mountCells[mounted.mount]? = some inner := by
    unfold Daemon.deliver
    rw [hmounts.2]
    exact ⟨_, List.getElem?_eq_getElem (hcell_lt.trans_le hkeeps.mountCells)⟩
  have hempty : synced.deliver.caches[mounted.cache]? = some FileCache.empty := by
    rw [← hframe.listeners] at hlistener hdistinct
    exact foldl_listen_of_announced hlistener hdistinct
      (List.getElem?_eq_getElem (hcache_lt.trans_le hkeeps.caches)) hannounced
  refine ⟨_, Daemon.running_eq_some_iff.mpr ⟨live, mounted, ?_, hsession,
    Daemon.view_of_cells hinner hempty⟩, syncReaches_of_empty not_serves_empty⟩
  unfold Daemon.deliver
  rw [hmounts.1, hframe.mounts, hlive]

/-- A listener of its own for the filesystem. -/
def listenFor (mounted : MountedFs) : DaemonM σ Unit := do
  let rx ← subscribeSyncEvents
  spawnSyncListener mounted rx

/-- If the listener of a running filesystem is spawned in a state that the daemon reaches,
the next sync of the bucket reaches the filesystem, whatever it has cached. -/
theorem sync_reaches_spawned {order : List Uuid} {live : LiveSession} {mounted : MountedFs}
    {before : FuseFs} {listening : Daemon σ} (hreached : Reached env state)
    (hlive : state.mounts.get? mountId = some live)
    (hbucket : live.config.bucketId = bucketId) (hsession : live.session = some mounted)
    (hbefore : state.view mounted = some before)
    (hlisten : (listenFor mounted).run state = .ok () listening) (hmem : mountId ∈ order)
    (hsync : (bucketSynced env fuel bucketId order).run listening = .ok () synced) :
    ∃ after, synced.deliver.running mountId = some after ∧ SyncReaches before after := by
  have hwired := hreached.wired
  obtain ⟨hshared, hid⟩ := hwired.shared mountId live mounted hlive hsession
  have hmounts : listening.mounts = state.mounts := by
    cases hlisten
    rfl
  have hview : listening.view mounted = state.view mounted := by
    cases hlisten
    rfl
  have hlisteners : listening.listeners =
      [⟨mounted.cache, mountId, state.receivers.length⟩] := by
    cases hlisten
    simp [hid, hwired.unheard]
  have hrx : state.receivers.length < listening.receivers.length := by
    cases hlisten
    simp
  rw [← hmounts] at hlive
  rw [← hview] at hbefore
  refine sync_reaches_listened hlive hbucket hsession hshared hbefore ?_ hrx ?_ hmem hsync
  · rw [hlisteners]
    exact List.mem_singleton_self _
  · rw [hlisteners]
    simp

end

end JaxFs

import JaxFs.FuseDaemon

/-!
# Syncs and the running filesystems

How the parties of the daemon are wired in every state that it reaches: each cache has
one holder, a filesystem shares the mount of its live mount, and no listener runs.  A sync
then brings the mount of a running filesystem up to date and leaves its cache as it was.
-/

namespace JaxFs

open Fuse BucketLogProvider

/-- The same cells, and no session that was not there. -/
structure LiveSession.SameCells (live live' : LiveSession) : Prop where
  mount : live'.mount = live.mount
  cache : live'.cache = live.cache
  session : ∀ fs', live'.session = some fs' →
    ∃ fs, live.session = some fs ∧ fs'.mount = fs.mount ∧ fs'.cache = fs.cache ∧
      fs'.mountId = fs.mountId

theorem LiveSession.SameCells.refl (live : LiveSession) : live.SameCells live :=
  ⟨rfl, rfl, fun fs hfs => ⟨fs, hfs, rfl, rfl, rfl⟩⟩

section

variable [P : Primitives] {σ : Type}

/-! ## Wiring -/

/-- Who holds a cache: the manager, in a live mount, or the filesystem of its session. -/
inductive Holder where
  | manager (mountId : Uuid)
  | session (mountId : Uuid)

def Daemon.Holds (state : Daemon σ) : Holder → ℕ → Prop
  | .manager mountId, cache =>
      ∃ live, state.mounts.get? mountId = some live ∧ live.cache = cache
  | .session mountId, cache =>
      ∃ live fs, state.mounts.get? mountId = some live ∧ live.session = some fs ∧
        fs.cache = cache

structure Wired (state : Daemon σ) : Prop where
  cache_lt : ∀ holder cache, state.Holds holder cache → cache < state.caches.length
  unshared : ∀ holder holder' cache, state.Holds holder cache → state.Holds holder' cache →
    holder = holder'
  mount_lt : ∀ mountId live, state.mounts.get? mountId = some live →
    live.mount < state.mountCells.length
  apart : ∀ mountId mountId' live live', state.mounts.get? mountId = some live →
    state.mounts.get? mountId' = some live' → live.mount = live'.mount → mountId = mountId'
  shared : ∀ mountId live fs, state.mounts.get? mountId = some live →
    live.session = some fs → fs.mount = live.mount ∧ fs.mountId = mountId
  unheard : state.listeners = []

theorem wired_new (peer : PeerState σ) : Wired (Daemon.new peer) := by
  have hnone : ∀ mountId, (Daemon.new peer).mounts.get? mountId = none := fun _ => rfl
  constructor
  · intro holder cache hholds
    cases holder <;> simp [Daemon.Holds, hnone] at hholds
  · intro holder holder' cache hholds
    cases holder <;> simp [Daemon.Holds, hnone] at hholds
  · intro mountId live hlive
    simp [hnone] at hlive
  · intro mountId mountId' live live' hlive
    simp [hnone] at hlive
  · intro mountId live fs hlive
    simp [hnone] at hlive
  · rfl

/-- No cell changes hands and none is given back. -/
structure KeepsWiring (state state' : Daemon σ) : Prop where
  mounts : ∀ mountId live', state'.mounts.get? mountId = some live' →
    ∃ live, state.mounts.get? mountId = some live ∧ live.SameCells live'
  caches : state.caches.length ≤ state'.caches.length
  mountCells : state.mountCells.length ≤ state'.mountCells.length
  listeners : state'.listeners = state.listeners

section

variable {state state' state'' : Daemon σ}

theorem KeepsWiring.of_mounts (hmounts : state'.mounts = state.mounts)
    (hcaches : state.caches.length ≤ state'.caches.length)
    (hcells : state.mountCells.length ≤ state'.mountCells.length)
    (hlisteners : state'.listeners = state.listeners) : KeepsWiring state state' := by
  refine ⟨?_, hcaches, hcells, hlisteners⟩
  intro mountId live hlive
  rw [hmounts] at hlive
  exact ⟨live, hlive, LiveSession.SameCells.refl live⟩

theorem KeepsWiring.refl (state : Daemon σ) : KeepsWiring state state :=
  KeepsWiring.of_mounts rfl le_rfl le_rfl rfl

theorem KeepsWiring.trans (h : KeepsWiring state state') (h' : KeepsWiring state' state'') :
    KeepsWiring state state'' where
  mounts mountId live'' hlive'' := by
    obtain ⟨live', hlive', hmount', hcache', hsession'⟩ := h'.mounts mountId live'' hlive''
    obtain ⟨live, hlive, hmount, hcache, hsession⟩ := h.mounts mountId live' hlive'
    refine ⟨live, hlive, hmount'.trans hmount, hcache'.trans hcache, ?_⟩
    intro fs'' hfs''
    obtain ⟨fs', hfs', hfsmount', hfscache', hfsid'⟩ := hsession' fs'' hfs''
    obtain ⟨fs, hfs, hfsmount, hfscache, hfsid⟩ := hsession fs' hfs'
    exact ⟨fs, hfs, hfsmount'.trans hfsmount, hfscache'.trans hfscache, hfsid'.trans hfsid⟩
  caches := h.caches.trans h'.caches
  mountCells := h.mountCells.trans h'.mountCells
  listeners := h'.listeners.trans h.listeners

theorem KeepsWiring.holds (h : KeepsWiring state state') {holder : Holder} {cache : ℕ}
    (hholds : state'.Holds holder cache) : state.Holds holder cache := by
  cases holder with
  | manager mountId =>
      obtain ⟨live', hlive', hcache⟩ := hholds
      obtain ⟨live, hlive, hsame⟩ := h.mounts mountId live' hlive'
      exact ⟨live, hlive, hsame.cache.symm.trans hcache⟩
  | session mountId =>
      obtain ⟨live', fs', hlive', hfs', hcache⟩ := hholds
      obtain ⟨live, hlive, hsame⟩ := h.mounts mountId live' hlive'
      obtain ⟨fs, hfs, -, hfscache, -⟩ := hsame.session fs' hfs'
      exact ⟨live, fs, hlive, hfs, hfscache.symm.trans hcache⟩

theorem Wired.keeps (h : Wired state) (hkeeps : KeepsWiring state state') : Wired state' where
  cache_lt holder cache hholds :=
    (h.cache_lt holder cache (hkeeps.holds hholds)).trans_le hkeeps.caches
  unshared holder holder' cache hholds hholds' :=
    h.unshared holder holder' cache (hkeeps.holds hholds) (hkeeps.holds hholds')
  mount_lt mountId live' hlive' := by
    obtain ⟨live, hlive, hsame⟩ := hkeeps.mounts mountId live' hlive'
    rw [hsame.mount]
    exact (h.mount_lt mountId live hlive).trans_le hkeeps.mountCells
  apart mountId mountId' live₁' live₂' hlive₁' hlive₂' heq := by
    obtain ⟨live₁, hlive₁, hsame₁⟩ := hkeeps.mounts mountId live₁' hlive₁'
    obtain ⟨live₂, hlive₂, hsame₂⟩ := hkeeps.mounts mountId' live₂' hlive₂'
    apply h.apart mountId mountId' live₁ live₂ hlive₁ hlive₂
    rw [← hsame₁.mount, ← hsame₂.mount, heq]
  shared mountId live' fs' hlive' hfs' := by
    obtain ⟨live, hlive, hsame⟩ := hkeeps.mounts mountId live' hlive'
    obtain ⟨fs, hfs, hmount, -, hid⟩ := hsame.session fs' hfs'
    rw [hmount, hsame.mount, hid]
    exact h.shared mountId live fs hlive hfs
  unheard := hkeeps.listeners.trans h.unheard

/-! ## What each step does to the wiring -/

/-- A live mount is written back with its cells. -/
theorem KeepsWiring.put {mountId : Uuid} {live live' : LiveSession}
    (hlive : state.mounts.get? mountId = some live) (hsame : live.SameCells live')
    (hmounts : state'.mounts = state.mounts.put mountId live')
    (hcaches : state.caches.length ≤ state'.caches.length)
    (hcells : state.mountCells.length ≤ state'.mountCells.length)
    (hlisteners : state'.listeners = state.listeners) : KeepsWiring state state' := by
  refine ⟨?_, hcaches, hcells, hlisteners⟩
  intro other live'' hlive''
  rw [hmounts, FinMap.get?_put] at hlive''
  split_ifs at hlive'' with heq
  · cases heq
    cases hlive''
    exact ⟨live, hlive, hsame⟩
  · exact ⟨live'', hlive'', LiveSession.SameCells.refl live''⟩

theorem keepsWiring_stop (state : Daemon σ) (mountId : Uuid) :
    KeepsWiring state (state.stop mountId) := by
  unfold Daemon.stop
  cases hlive : state.mounts.get? mountId with
  | none => exact KeepsWiring.refl state
  | some live =>
      have hsame : live.SameCells { live with session := none } := by
        refine ⟨rfl, rfl, ?_⟩
        intro fs hfs
        contradiction
      exact KeepsWiring.put hlive hsame rfl le_rfl le_rfl rfl

theorem keepsWiring_delete (state : Daemon σ) (mountId : Uuid) :
    KeepsWiring state (state.delete mountId) := by
  apply (keepsWiring_stop state mountId).trans
  refine ⟨?_, le_rfl, le_rfl, rfl⟩
  intro other live hlive
  rw [Daemon.delete, FinMap.get?_erase] at hlive
  split_ifs at hlive
  exact ⟨live, hlive, LiveSession.SameCells.refl live⟩

theorem keepsWiring_write {mountId : Uuid} {live : LiveSession} {fs : MountedFs}
    (hlive : state.mounts.get? mountId = some live) (hfs : live.session = some fs)
    (after : FuseFs) : KeepsWiring state (state.write live fs mountId after) := by
  apply KeepsWiring.put hlive ?_ rfl
  · simp [Daemon.write]
  · simp [Daemon.write]
  · rfl
  · refine ⟨rfl, rfl, ?_⟩
    intro fs' hfs'
    cases hfs'
    exact ⟨fs, hfs, rfl, rfl, rfl⟩

theorem keepsWiring_serve (state : Daemon σ) (mountId : Uuid) (request : FuseM Unit) :
    KeepsWiring state (state.serve mountId request) := by
  unfold Daemon.serve
  cases hlive : state.mounts.get? mountId with
  | none => exact KeepsWiring.refl state
  | some live =>
      cases hfs : live.session with
      | none =>
          simp only [hfs]
          exact KeepsWiring.refl state
      | some fs =>
          simp only [hfs]
          cases state.view fs with
          | none => exact KeepsWiring.refl state
          | some before =>
              exact keepsWiring_write hlive hfs _

theorem keepsWiring_listen (state : Daemon σ) (listener : SyncListener) :
    KeepsWiring state (state.listen listener) := by
  have hlength : ∀ (events : List Received) (caches : List FileCache),
      (events.foldl (fun caches _ =>
        caches.modify listener.cache FileCache.invalidateAll) caches).length =
        caches.length := by
    intro events
    induction events with
    | nil => simp
    | cons event rest ih => simp [ih]
  unfold Daemon.listen
  cases state.receivers[listener.rx]? with
  | none => exact KeepsWiring.refl state
  | some receiver => exact KeepsWiring.of_mounts rfl (by simp [hlength]) le_rfl rfl

theorem keepsWiring_deliver (state : Daemon σ) : KeepsWiring state state.deliver := by
  unfold Daemon.deliver
  generalize state.listeners = listeners
  induction listeners generalizing state with
  | nil => exact KeepsWiring.refl state
  | cons listener rest ih =>
      exact (keepsWiring_listen state listener).trans (ih (state.listen listener))

/-- The daemon after the turn of a live mount. -/
def Daemon.afterTurn (state : Daemon σ) (mountId : Uuid) (live : LiveSession)
    (after : PeerMount σ) : Daemon σ :=
  ((state.refreshed live.mount after).invalidateAll live.cache).send
    (.mountInvalidated mountId)

@[simp] theorem Daemon.mounts_refreshed (mount : ℕ) (after : PeerMount σ) :
    (state.refreshed mount after).mounts = state.mounts := rfl

@[simp] theorem Daemon.caches_refreshed (mount : ℕ) (after : PeerMount σ) :
    (state.refreshed mount after).caches = state.caches := rfl

@[simp] theorem Daemon.mountCells_refreshed (mount : ℕ) (after : PeerMount σ) :
    (state.refreshed mount after).mountCells = state.mountCells.set mount after.inner := rfl

@[simp] theorem Daemon.caches_afterTurn (mountId : Uuid) (live : LiveSession)
    (after : PeerMount σ) : (state.afterTurn mountId live after).caches =
      state.caches.modify live.cache FileCache.invalidateAll := rfl

@[simp] theorem Daemon.mountCells_afterTurn (mountId : Uuid) (live : LiveSession)
    (after : PeerMount σ) : (state.afterTurn mountId live after).mountCells =
      state.mountCells.set live.mount after.inner := rfl

section

variable [BucketLogProvider σ] {env : PeerEnv} {fuel : ℕ} {bucketId mountId : Uuid}

omit [BucketLogProvider σ] in
theorem run_getDaemon_bind {α : Type} (f : Daemon σ → DaemonM σ α) (state : Daemon σ) :
    (getThe (Daemon σ) >>= f).run state = (f state).run state := rfl

theorem run_syncLive (state : Daemon σ) :
    (syncLive env fuel bucketId mountId).run state =
      match state.mounts.get? mountId with
      | none => .ok () state
      | some live =>
          if live.config.bucketId = bucketId then
            match state.mountCells[live.mount]? with
            | none => .ok () state
            | some inner =>
                match (refreshMount env fuel bucketId).run ⟨state.peer, inner⟩ with
                | .ok _ after => .ok () (state.afterTurn mountId live after)
                | .error fault after =>
                    .error (.mountLoad fault) (state.refreshed live.mount after)
          else .ok () state := rfl

theorem keepsWiring_syncLive :
    EStateM.Preserves (@KeepsWiring _ σ) (syncLive env fuel bucketId mountId) := by
  intro state
  rw [run_syncLive]
  cases state.mounts.get? mountId with
  | none => exact KeepsWiring.refl state
  | some live =>
      dsimp only
      split_ifs
      · cases state.mountCells[live.mount]? with
        | none => exact KeepsWiring.refl state
        | some inner =>
            dsimp only
            cases (refreshMount env fuel bucketId).run ⟨state.peer, inner⟩ with
            | ok refresh after =>
                exact KeepsWiring.of_mounts rfl (by simp) (by simp) rfl
            | error fault after =>
                exact KeepsWiring.of_mounts rfl (by simp) (by simp) rfl
      · exact KeepsWiring.refl state

theorem keepsWiring_bucketSynced (order : List Uuid) :
    EStateM.Preserves (@KeepsWiring _ σ) (bucketSynced env fuel bucketId order) := by
  induction order with
  | nil => exact EStateM.Preserves.pure KeepsWiring.refl ()
  | cons mountId rest ih =>
      exact EStateM.Preserves.bind (fun _ _ _ => KeepsWiring.trans) keepsWiring_syncLive
        (fun _ => ih)

/-! ## Starting -/

/-- The daemon with the cells that `start` makes. -/
def Daemon.prepared (state : Daemon σ) (inner : MountInner) : Daemon σ :=
  { state with
    mountCells := state.mountCells ++ [inner]
    caches := state.caches ++ [FileCache.empty] ++ [FileCache.empty]
    receivers := state.receivers ++ [⟨[], 0⟩] }

/-- The filesystem that `start` makes. -/
def Daemon.newFs (state : Daemon σ) (mountId : Uuid) (config : FuseMount) : MountedFs where
  mount := state.mountCells.length
  mountId := mountId
  inodes := InodeTable.new
  writeBuffers := KeyedMap.empty
  cache := (state.caches ++ [FileCache.empty]).length
  syncRx := some state.receivers.length
  saveTx := some []
  readOnly := config.readOnly
  nextFh := 1

/-- The daemon after a call of `start` that succeeds. -/
def Daemon.started (state : Daemon σ) (mountId : Uuid) (config : FuseMount)
    (inner : MountInner) : Daemon σ :=
  { state.prepared inner with
    mounts := state.mounts.put mountId
      { mount := state.mountCells.length
        session := some (state.newFs mountId config)
        cache := state.caches.length
        config := config } }

omit [BucketLogProvider σ] in
theorem keepsWiring_prepared (state : Daemon σ) (inner : MountInner) :
    KeepsWiring state (state.prepared inner) := by
  have hmounts : (state.prepared inner).mounts = state.mounts := rfl
  apply KeepsWiring.of_mounts hmounts
  · simp [Daemon.prepared]
  · simp [Daemon.prepared]
  · rfl

omit [BucketLogProvider σ] in
theorem get?_started (config : FuseMount) (inner : MountInner) {other : Uuid}
    {live : LiveSession}
    (hlive : (state.started mountId config inner).mounts.get? other = some live) :
    (other = mountId ∧ live = ⟨state.mountCells.length, some (state.newFs mountId config),
        state.caches.length, config⟩) ∨ state.mounts.get? other = some live := by
  rw [Daemon.started, FinMap.get?_put] at hlive
  split_ifs at hlive with heq
  · cases hlive
    exact Or.inl ⟨heq.symm, rfl⟩
  · exact Or.inr hlive

omit [BucketLogProvider σ] in
theorem holds_started (config : FuseMount) (inner : MountInner) {holder : Holder}
    {cache : ℕ} (hholds : (state.started mountId config inner).Holds holder cache) :
    state.Holds holder cache ∨
      (holder = .manager mountId ∧ cache = state.caches.length) ∨
        (holder = .session mountId ∧ cache = state.caches.length + 1) := by
  cases holder with
  | manager other =>
      obtain ⟨live, hlive, rfl⟩ := hholds
      rcases get?_started config inner hlive with ⟨rfl, rfl⟩ | hold
      · exact Or.inr (Or.inl ⟨rfl, rfl⟩)
      · exact Or.inl ⟨live, hold, rfl⟩
  | session other =>
      obtain ⟨live, fs, hlive, hfs, rfl⟩ := hholds
      rcases get?_started config inner hlive with ⟨rfl, rfl⟩ | hold
      · cases hfs
        exact Or.inr (Or.inr ⟨rfl, by simp [Daemon.newFs]⟩)
      · exact Or.inl ⟨live, fs, hold, hfs, rfl⟩

omit [BucketLogProvider σ] in
/-- The caches of a new live mount and of its filesystem are two. -/
theorem Wired.started (h : Wired state) (mountId : Uuid) (config : FuseMount)
    (inner : MountInner) : Wired (state.started mountId config inner) where
  cache_lt holder cache hholds := by
    have hlength : (state.started mountId config inner).caches.length =
        state.caches.length + 2 := by
      simp [Daemon.started, Daemon.prepared]
    rw [hlength]
    rcases holds_started config inner hholds with hold | ⟨-, heq⟩ | ⟨-, heq⟩
    · have hlt := h.cache_lt holder cache hold
      omega
    · omega
    · omega
  unshared holder holder' cache hholds hholds' := by
    rcases holds_started config inner hholds with hold | ⟨hnew, heq⟩ | ⟨hnew, heq⟩
    · have hlt := h.cache_lt holder cache hold
      rcases holds_started config inner hholds' with hold' | ⟨-, heq'⟩ | ⟨-, heq'⟩
      · exact h.unshared holder holder' cache hold hold'
      · omega
      · omega
    · rcases holds_started config inner hholds' with hold' | ⟨hnew', -⟩ | ⟨-, heq'⟩
      · have hlt := h.cache_lt holder' cache hold'
        omega
      · rw [hnew, hnew']
      · omega
    · rcases holds_started config inner hholds' with hold' | ⟨-, heq'⟩ | ⟨hnew', -⟩
      · have hlt := h.cache_lt holder' cache hold'
        omega
      · omega
      · rw [hnew, hnew']
  mount_lt other live hlive := by
    have hlength : (state.started mountId config inner).mountCells.length =
        state.mountCells.length + 1 := by
      simp [Daemon.started, Daemon.prepared]
    rw [hlength]
    rcases get?_started config inner hlive with ⟨-, rfl⟩ | hold
    · simp
    · have hlt := h.mount_lt other live hold
      omega
  apart other other' live live' hlive hlive' heq := by
    rcases get?_started config inner hlive with ⟨hid, rfl⟩ | hold
    · rcases get?_started config inner hlive' with ⟨hid', rfl⟩ | hold'
      · rw [hid, hid']
      · have hlt := h.mount_lt other' live' hold'
        dsimp only at heq
        omega
    · rcases get?_started config inner hlive' with ⟨hid', rfl⟩ | hold'
      · have hlt := h.mount_lt other live hold
        dsimp only at heq
        omega
      · exact h.apart other other' live live' hold hold' heq
  shared other live fs hlive hfs := by
    rcases get?_started config inner hlive with ⟨hid, rfl⟩ | hold
    · cases hfs
      exact ⟨rfl, hid.symm⟩
    · exact h.shared other live fs hold hfs
  unheard := h.unheard

theorem run_start {config : FuseMount} {inner : MountInner} (spawned : Bool)
    (hfree : (state.mounts.get? mountId).any (fun live => live.session.isSome) = false)
    (hhead : state.peer.mountHead env config.bucketId = .ok inner) :
    (start env (some config) spawned mountId).run state =
      if spawned then .ok () (state.started mountId config inner)
      else .error .spawnFailed (state.prepared inner) := by
  unfold start
  rw [run_getDaemon_bind]
  dsimp only
  rw [hfree, hhead]
  cases spawned <;> rfl

/-- A call of `start` makes new cells for a session, or no session at all. -/
theorem start_cases (env : PeerEnv) (row : Option FuseMount) (spawned : Bool)
    (mountId : Uuid) (state : Daemon σ) :
    KeepsWiring state ((start env row spawned mountId).run state).state ∨
      ∃ config inner, ((start env row spawned mountId).run state).state =
        state.started mountId config inner := by
  cases row with
  | none => exact Or.inl (KeepsWiring.refl state)
  | some config =>
      cases hfree : (state.mounts.get? mountId).any (fun live => live.session.isSome) with
      | true =>
          left
          unfold start
          rw [run_getDaemon_bind]
          dsimp only
          rw [hfree]
          exact KeepsWiring.refl state
      | false =>
          cases hhead : state.peer.mountHead env config.bucketId with
          | error fault =>
              left
              unfold start
              rw [run_getDaemon_bind]
              dsimp only
              rw [hfree, hhead]
              exact KeepsWiring.refl state
          | ok inner =>
              rw [run_start spawned hfree hhead]
              cases spawned with
              | true => exact Or.inr ⟨config, inner, rfl⟩
              | false =>
                  exact Or.inl (keepsWiring_prepared state inner)

/-! ## Runs -/

theorem Wired.step (h : Wired state) (env : PeerEnv) (action : DaemonAction σ) :
    Wired (state.step env action) := by
  cases action with
  | start row spawned mountId =>
      rcases start_cases env row spawned mountId state with hkeeps | ⟨config, inner, hstarted⟩
      · exact h.keeps hkeeps
      · rw [Daemon.step, hstarted]
        exact h.started mountId config inner
  | stop mountId => exact h.keeps (keepsWiring_stop state mountId)
  | delete mountId => exact h.keeps (keepsWiring_delete state mountId)
  | request mountId now request => exact h.keeps (keepsWiring_serve state mountId _)
  | setattr mountId now ino size mtime fh => exact h.keeps (keepsWiring_serve state mountId _)
  | bucketSynced fuel bucketId order => exact h.keeps (keepsWiring_bucketSynced order state)
  | deliver => exact h.keeps (keepsWiring_deliver state)
  | others peer mountCells =>
      rw [Daemon.step]
      split_ifs with hlength
      · exact h.keeps (KeepsWiring.of_mounts rfl le_rfl hlength.ge rfl)
      · exact h
  | cached caches =>
      rw [Daemon.step]
      split_ifs with hlength
      · exact h.keeps (KeepsWiring.of_mounts rfl hlength.ge le_rfl rfl)
      · exact h

/-- Every state that the daemon reaches is wired in this way. -/
theorem wired_of_run (env : PeerEnv) (peer : PeerState σ) (actions : List (DaemonAction σ)) :
    Wired (actions.foldl (Daemon.step env) (Daemon.new peer)) := by
  have hwired := wired_new peer
  generalize Daemon.new peer = state at hwired
  induction actions generalizing state with
  | nil => exact hwired
  | cons action rest ih => exact ih _ (hwired.step env action)

end

end

end

end JaxFs

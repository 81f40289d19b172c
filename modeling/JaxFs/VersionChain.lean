import JaxFs.LogJoin
import JaxFs.MountSystem

/-!
# One chain of versions

A mount that is initialised and then operated on, saved and loaded again, by any
keys, along one chain: a load takes any version of the chain and drops what came
after it.  The history of the chain, newest event first, is what really happened on
it; the operation logs of the mount and of the stored versions are only what the
code remembers of it.
-/

namespace JaxFs

/-! ## Histories -/

inductive ChainEvent where
  | recorded (op : PathOperation)
  | saved (link : Link)
  deriving DecidableEq

namespace ChainEvent

def op? : ChainEvent → Option PathOperation
  | .recorded op => some op
  | .saved _ => none

def link? : ChainEvent → Option Link
  | .recorded _ => none
  | .saved link => some link

end ChainEvent

def recordedOps (history : List ChainEvent) : List PathOperation :=
  history.filterMap ChainEvent.op?

def savedLinks (history : List ChainEvent) : List Link :=
  history.filterMap ChainEvent.link?

/-- The events after the version was saved. -/
def sinceSaved (link : Link) (history : List ChainEvent) : List ChainEvent :=
  history.takeWhile (fun event => decide (event ≠ .saved link))

/-- The events up to the save of the version. -/
def upToSaved (link : Link) (history : List ChainEvent) : List ChainEvent :=
  history.dropWhile (fun event => decide (event ≠ .saved link))

@[simp] theorem recordedOps_recorded (op : PathOperation) (history : List ChainEvent) :
    recordedOps (.recorded op :: history) = op :: recordedOps history := rfl

@[simp] theorem recordedOps_saved (link : Link) (history : List ChainEvent) :
    recordedOps (.saved link :: history) = recordedOps history := rfl

@[simp] theorem savedLinks_recorded (op : PathOperation) (history : List ChainEvent) :
    savedLinks (.recorded op :: history) = savedLinks history := rfl

@[simp] theorem savedLinks_saved (link : Link) (history : List ChainEvent) :
    savedLinks (.saved link :: history) = link :: savedLinks history := rfl

/-- A version of the chain splits its history. -/
theorem upToSaved_eq {link : Link} {history : List ChainEvent}
    (h : ChainEvent.saved link ∈ history) :
    ∃ older, upToSaved link history = .saved link :: older ∧
      history = sinceSaved link history ++ .saved link :: older := by
  induction history with
  | nil => simp at h
  | cons event rest ih =>
      by_cases hevent : event = .saved link
      · refine ⟨rest, ?_, ?_⟩
        · simp [upToSaved, hevent]
        · simp [sinceSaved, hevent]
      · have hrest : ChainEvent.saved link ∈ rest := by
          rcases List.mem_cons.mp h with heq | hmem
          · exact absurd heq.symm hevent
          · exact hmem
        obtain ⟨older, hup, hsplit⟩ := ih hrest
        refine ⟨older, ?_, ?_⟩
        · unfold upToSaved at hup ⊢
          rw [List.dropWhile_cons_of_pos (by simpa using hevent), hup]
        · unfold sinceSaved at hsplit ⊢
          rw [List.takeWhile_cons_of_pos (by simpa using hevent), List.cons_append, ← hsplit]

section

variable [P : Primitives]

/-! ## The chain -/

structure VersionChain where
  state : MountState
  history : List ChainEvent

inductive ChainAction where
  | operate (action : MountAction)
  | load (link : Link) (secretKey : SecretKey)
  /-- Another mount stores a blob meanwhile. -/
  | elsewhere (data : Bytes)

/-- The operations that are recorded. -/
def MountAction.edits : MountAction → Bool
  | .add _ _ => true
  | .rm _ => true
  | .mkdir _ => true
  | .mv _ _ => true
  | _ => false

/-- What an operation that has succeeded adds to the history; a recorded operation is
the one under the present clock. -/
def newEvents (action : MountAction) (inner : MountInner) : List ChainEvent :=
  match action with
  | .addOwner _ => []
  | .addMirror _ => []
  | .save _ => [.saved inner.link]
  | _ => (inner.opsLog.operations.find? ⟨inner.opsLog.localClock, inner.peerId⟩).toList.map
      .recorded

namespace VersionChain

def step (chain : VersionChain) : ChainAction → VersionChain
  | .operate action =>
      match action.run.run chain.state with
      | .ok _ state' => ⟨state', newEvents action state'.inner ++ chain.history⟩
      | .error _ state' => ⟨state', chain.history⟩
  | .load link secretKey =>
      if ChainEvent.saved link ∈ chain.history then
        match JaxFs.load chain.state.world.blobs link secretKey with
        | .ok inner => ⟨⟨chain.state.world, inner⟩, upToSaved link chain.history⟩
        | .error _ => chain
      else chain
  | .elsewhere data => ⟨⟨chain.state.world.store data, chain.state.inner⟩, chain.history⟩

def run (chain : VersionChain) (actions : List ChainAction) : VersionChain :=
  actions.foldl step chain

/-- The chain that `init` begins. -/
def start (state : MountState) : VersionChain := ⟨state, [.saved state.inner.link]⟩

end VersionChain

/-! ## Invariants -/

/-- The log with the operation, recorded under the next clock. -/
structure PathOpLog.Appends (log : PathOpLog) (peerId : PublicKey) (op : PathOperation)
    (log' : PathOpLog) : Prop where
  id : op.id = ⟨u64Succ log.localClock, peerId⟩
  log : log' = ⟨log.operations.insert op, u64Succ log.localClock⟩

/-- What the logs remember of a history, kept by every event as long as the actions are
allowed. -/
structure ChainRules (allowed : VersionChain → ChainAction → Prop)
    (pendingOk : List ChainEvent → PathOpLog → Prop)
    (versionOk : List ChainEvent → Version → Prop) : Prop where
  init : ∀ link, pendingOk [.saved link] PathOpLog.new
  genesis : ∀ version : Version, version.operations = KeyedMap.empty →
    version.manifest.opsLog = none → versionOk [] version
  record : ∀ {chain : VersionChain} {action op log},
    allowed chain (.operate action) → action.edits = true →
    chain.state.inner.opsLog.Appends chain.state.inner.peerId op log →
    pendingOk chain.history chain.state.inner.opsLog →
    pendingOk (.recorded op :: chain.history) log
  save : ∀ {history log link}, pendingOk history log →
    pendingOk (.saved link :: history) log.clearPreservingClock
  version : ∀ {history log} {version : Version}, pendingOk history log →
    version.operations = log.operations →
    (log.isEmpty = true → version.manifest.opsLog = none) → versionOk history version
  load : ∀ {chain : VersionChain} {secretKey older} {version : Version},
    allowed chain (.load version.link secretKey) →
    upToSaved version.link chain.history = .saved version.link :: older →
    version.Stored chain.state.world.blobs → versionOk older version →
    pendingOk (.saved version.link :: older) (PathOpLog.rebuildClock ⟨version.operations, 0⟩)

/-- The version under the link, and the one before it in the history. -/
def VersionAt (versionOk : List ChainEvent → Version → Prop) (blobs : Blobs) (link : Link)
    (older : List ChainEvent) : Prop :=
  ∃ version : Version, version.link = link ∧ version.Stored blobs ∧ version.manifest.Filed ∧
    version.manifest.previous = (savedLinks older).head? ∧ versionOk older version

structure VersionChain.Sound (pendingOk : List ChainEvent → PathOpLog → Prop)
    (versionOk : List ChainEvent → Version → Prop) (chain : VersionChain) : Prop where
  filed : chain.state.inner.manifest.Filed
  link : (savedLinks chain.history).head? = some chain.state.inner.link
  pending : pendingOk chain.history chain.state.inner.opsLog
  versions : ∀ newer link older, chain.history = newer ++ .saved link :: older →
    VersionAt versionOk chain.state.world.blobs link older

section

variable {allowed : VersionChain → ChainAction → Prop}
  {pendingOk : List ChainEvent → PathOpLog → Prop}
  {versionOk : List ChainEvent → Version → Prop}

theorem VersionAt.grows {world world' : World} (hgrows : Grows world world') {link : Link}
    {older : List ChainEvent} (h : VersionAt versionOk world.blobs link older) :
    VersionAt versionOk world'.blobs link older := by
  obtain ⟨version, hlink, hstored, hrest⟩ := h
  exact ⟨version, hlink, hstored.grows hgrows, hrest⟩

namespace VersionChain.Sound

variable {chain : VersionChain}

/-- Versions of a longer history. -/
theorem versions_cons (h : chain.Sound pendingOk versionOk) {world : World}
    (hgrows : Grows chain.state.world world) {event : ChainEvent}
    (hevent : ∀ link, event = .saved link →
      VersionAt versionOk world.blobs link chain.history) :
    ∀ newer link older, event :: chain.history = newer ++ .saved link :: older →
      VersionAt versionOk world.blobs link older := by
  intro newer link older hsplit
  cases newer with
  | nil =>
      obtain ⟨hhead, hrest⟩ := List.cons_eq_cons.mp hsplit
      rw [← hrest]
      exact hevent link hhead
  | cons first rest =>
      obtain ⟨-, hrest⟩ := List.cons_eq_cons.mp hsplit
      exact (h.versions rest link older hrest).grows hgrows

/-- Nothing happens on the chain. -/
theorem kept (h : chain.Sound pendingOk versionOk) {state' : MountState}
    (hgrows : Grows chain.state.world state'.world) (hfiled : state'.inner.manifest.Filed)
    (hlink : state'.inner.link = chain.state.inner.link)
    (hlog : state'.inner.opsLog = chain.state.inner.opsLog) :
    VersionChain.Sound pendingOk versionOk ⟨state', chain.history⟩ where
  filed := hfiled
  link := hlink ▸ h.link
  pending := hlog ▸ h.pending
  versions := fun newer link older hsplit =>
    (h.versions newer link older hsplit).grows hgrows

/-- One of the four operations on paths. -/
theorem records (h : chain.Sound pendingOk versionOk)
    (hrules : ChainRules allowed pendingOk versionOk) {action : MountAction}
    (hallowed : allowed chain (.operate action)) (hedits : action.edits = true)
    (hrecords : Records action.run)
    (hevents : ∀ inner, newEvents action inner = (inner.opsLog.operations.find?
      ⟨inner.opsLog.localClock, inner.peerId⟩).toList.map .recorded) :
    (chain.step (.operate action)).Sound pendingOk versionOk := by
  rw [VersionChain.step]
  rcases hrecords chain.state with ⟨fault, state', hrun, hkept⟩ |
    ⟨_, state', opsLog, hrun, ⟨opType, path, contentLink, isDir, hopsLog⟩, hedited⟩
  · rw [hrun]
    exact h.kept hkept.grows (hkept.manifest ▸ h.filed) hkept.link hkept.opsLog
  · rw [hrun]
    let op : PathOperation := ⟨⟨u64Succ chain.state.inner.opsLog.localClock,
      chain.state.inner.peerId⟩, opType, path, contentLink, isDir⟩
    have happends : chain.state.inner.opsLog.Appends chain.state.inner.peerId op opsLog :=
      ⟨rfl, hopsLog⟩
    have hfind : state'.inner.opsLog.operations.find?
        ⟨state'.inner.opsLog.localClock, state'.inner.peerId⟩ = some op := by
      rw [hedited.opsLog, hedited.peerId, happends.log, KeyedMap.find?_insert]
      exact if_pos rfl
    dsimp only
    rw [hevents, hfind]
    constructor
    · exact hedited.manifest ▸ h.filed
    · exact hedited.link ▸ h.link
    · exact hedited.opsLog ▸ hrules.record hallowed hedits happends h.pending
    · exact h.versions_cons hedited.grows (by simp)

variable [LawfulPrimitives]

theorem save (h : chain.Sound pendingOk versionOk)
    (hrules : ChainRules allowed pendingOk versionOk) (publish : Bool) :
    (chain.step (.operate (.save publish))).Sound pendingOk versionOk := by
  rw [VersionChain.step, MountAction.run]
  cases hsave : (JaxFs.save publish).run chain.state with
  | error fault state' =>
      rw [EStateM.run_bind_of_error hsave]
      obtain ⟨world', hgrows, rfl⟩ := run_save_eq_error hsave
      exact h.kept hgrows h.filed rfl rfl
  | ok result state' =>
      rw [EStateM.run_bind_of_ok hsave]
      have hgrows : Grows chain.state.world state'.world := (mountGrows_save publish).of_ok hsave
      obtain ⟨version, hstored, hsaves, -, hinner⟩ := stored_of_save h.filed hsave
      have hlink : state'.inner.link = version.link := by rw [hinner]
      change VersionChain.Sound pendingOk versionOk
        ⟨state', .saved state'.inner.link :: chain.history⟩
      constructor
      · rw [hinner]
        exact hsaves.filed
      · exact (savedLinks_saved _ _ ▸ rfl)
      · rw [hinner]
        exact hrules.save h.pending
      · apply h.versions_cons hgrows
        intro link hevent
        cases hevent
        exact ⟨version, hlink.symm, hstored, hsaves.filed, hsaves.previous.trans h.link.symm,
          hrules.version h.pending hsaves.operations hsaves.noOpsLog⟩

omit [LawfulPrimitives] in
theorem load (h : chain.Sound pendingOk versionOk)
    (hrules : ChainRules allowed pendingOk versionOk) {link : Link} {secretKey : SecretKey}
    (hallowed : allowed chain (.load link secretKey)) :
    (chain.step (.load link secretKey)).Sound pendingOk versionOk := by
  rw [VersionChain.step]
  split_ifs with hsaved
  · obtain ⟨older, hup, hsplit⟩ := upToSaved_eq hsaved
    obtain ⟨version, rfl, hstored, hfiled, hprevious, hversion⟩ :=
      h.versions _ link older hsplit
    rw [hstored.load_eq]
    cases getSecretForManifest version.manifest secretKey with
    | error fault => exact h
    | ok secret =>
        change VersionChain.Sound pendingOk versionOk ⟨⟨chain.state.world,
          version.mount secretKey⟩, upToSaved version.link chain.history⟩
        rw [hup]
        constructor
        · exact hfiled
        · rfl
        · exact hrules.load hallowed hup hstored hversion
        · intro newer other older' hsplit'
          apply h.versions (sinceSaved version.link chain.history ++ newer) other older'
          rw [List.append_assoc, ← hsplit']
          exact hsplit
  · exact h

theorem step (h : chain.Sound pendingOk versionOk)
    (hrules : ChainRules allowed pendingOk versionOk) {action : ChainAction}
    (hallowed : allowed chain action) : (chain.step action).Sound pendingOk versionOk := by
  cases action with
  | load link secretKey => exact h.load hrules hallowed
  | elsewhere data => exact h.kept (grows_store _ data) h.filed rfl rfl
  | operate action =>
      cases action with
      | add path data => exact h.records hrules hallowed rfl (records_add _ _) (fun _ => rfl)
      | rm path => exact h.records hrules hallowed rfl (records_rm _) (fun _ => rfl)
      | mkdir path => exact h.records hrules hallowed rfl (records_mkdir _) (fun _ => rfl)
      | mv source target => exact h.records hrules hallowed rfl (records_mv _ _) (fun _ => rfl)
      | save publish => exact h.save hrules publish
      | addMirror peer =>
          exact h.kept (Grows.refl _) (h.filed.addShare (Share.newMirror peer)) rfl rfl
      | addOwner peer =>
          rw [VersionChain.step, MountAction.run, addOwner]
          cases hwrap : (newSecretShare Secret.default peer).run chain.state.world with
          | error fault world' =>
              rw [EStateM.run_bind_of_error (run_onBlobs_of_error hwrap)]
              exact h.kept ((grows_newSecretShare _ _).of_error hwrap) h.filed rfl rfl
          | ok share world' =>
              rw [EStateM.run_bind_of_ok (run_onBlobs_of_ok hwrap)]
              exact h.kept ((grows_newSecretShare _ _).of_ok hwrap)
                (h.filed.addShare (Share.newOwner share peer)) rfl rfl

end VersionChain.Sound

variable [LawfulPrimitives]

namespace VersionChain

theorem sound_start (hrules : ChainRules allowed pendingOk versionOk) {id : Uuid} {name : Name}
    {owner : SecretKey} {world : World} {state : MountState}
    (hinit : (init id name owner).run world = .ok state.inner state.world) :
    (start state).Sound pendingOk versionOk := by
  obtain ⟨world', inner⟩ := state
  obtain ⟨version, hstored, rfl, -, hoperations, hnoOps, hprevious, -, hfiled, -⟩ :=
    stored_of_init hinit
  constructor
  · exact hfiled
  · rfl
  · rw [start, Version.mount, hoperations]
    exact hrules.init version.link
  · intro newer link older hsplit
    cases newer with
    | nil =>
        cases hsplit
        exact ⟨version, rfl, hstored, hfiled, hprevious,
          hrules.genesis version hoperations hnoOps⟩
    | cons first rest => simp [start] at hsplit

/-- The rule for runs. -/
theorem sound_run (hrules : ChainRules allowed pendingOk versionOk) {id : Uuid} {name : Name}
    {owner : SecretKey} {world : World} {state : MountState}
    (hinit : (init id name owner).run world = .ok state.inner state.world)
    {actions : List ChainAction} (hallowed : AlongRun step allowed (start state) actions) :
    ((start state).run actions).Sound pendingOk versionOk := by
  have hstep : ∀ chain action, Sound pendingOk versionOk chain → allowed chain action →
      (chain.step action).Sound pendingOk versionOk :=
    fun _ _ h haction => h.step hrules haction
  exact hallowed.invariant hstep (sound_start hrules hinit)

end VersionChain

end

end

namespace Reference

/-- A directory, saved. -/
def savedDirectory : VersionChain :=
  (VersionChain.start freshMount).run
    [.operate (.mkdir (absPath ["a".toList])), .operate (.save false)]

end Reference

end JaxFs

import JaxFs.MountEdits
import JaxFs.Runs
import JaxFs.StoredVersion

/-!
# Mounts that share a store

Any number of mounts over one blob store, of any peers.  A mount comes into being by
`init` or by the load of a version that a mount has been at, and then takes any
operation, in any order; an operation that fails keeps what it had written.  The
store only grows, so an invariant of single mounts and versions that growth keeps is
an invariant of the whole system once each operation keeps it.
-/

namespace JaxFs

section

variable [P : Primitives]

/-! ## The system -/

inductive MountAction where
  | add (path : Path) (data : Bytes)
  | rm (path : Path)
  | mkdir (path : Path)
  | mv (source target : Path)
  | addOwner (peer : PublicKey)
  | addMirror (peer : PublicKey)
  | save (publish : Bool)

def MountAction.run : MountAction → MountM Unit
  | .add path data => JaxFs.add path data
  | .rm path => JaxFs.rm path
  | .mkdir path => JaxFs.mkdir path
  | .mv source target => JaxFs.mv source target
  | .addOwner peer => JaxFs.addOwner peer
  | .addMirror peer => JaxFs.addMirror peer
  | .save publish => do
      let _ ← JaxFs.save publish
      pure ()

/-- The mounts, and every link that one of them has been at. -/
structure MountSystem where
  world : World
  mounts : List MountInner
  links : List Link

inductive SystemAction where
  | init (id : Uuid) (name : Name) (owner : SecretKey)
  | load (version : ℕ) (secretKey : SecretKey)
  | operate (mount : ℕ) (action : MountAction)
  | mergeFrom (mount incoming fuel : ℕ) (resolver : ConflictResolver)

namespace MountSystem

def start (world : World) : MountSystem := ⟨world, [], []⟩

def enter (system : MountSystem) (state : MountState) : MountSystem :=
  ⟨state.world, system.mounts ++ [state.inner], system.links ++ [state.inner.link]⟩

def update (system : MountSystem) (mount : ℕ) (state : MountState) : MountSystem :=
  ⟨state.world, system.mounts.set mount state.inner, system.links ++ [state.inner.link]⟩

/-- One action; a mount or version that is not there does nothing. -/
def step (system : MountSystem) : SystemAction → MountSystem
  | .init id name owner =>
      match (JaxFs.init id name owner).run system.world with
      | .ok inner world => system.enter ⟨world, inner⟩
      | .error _ world => { system with world := world }
  | .load version secretKey =>
      match system.links[version]? with
      | none => system
      | some link =>
          match JaxFs.load system.world.blobs link secretKey with
          | .ok inner => system.enter ⟨system.world, inner⟩
          | .error _ => system
  | .operate mount action =>
      match system.mounts[mount]? with
      | none => system
      | some inner => system.update mount (action.run.run ⟨system.world, inner⟩).state
  | .mergeFrom mount incoming fuel resolver =>
      match system.mounts[mount]?, system.mounts[incoming]? with
      | some inner, some other => system.update mount
          ((JaxFs.mergeFrom fuel other resolver).run ⟨system.world, inner⟩).state
      | _, _ => system

def run (system : MountSystem) (actions : List SystemAction) : MountSystem :=
  actions.foldl step system

end MountSystem

/-! ## Growth -/

variable [LawfulPrimitives]

omit [LawfulPrimitives] in
theorem Records.grows {α : Type} {x : MountM α} (h : Records x) :
    EStateM.Preserves MountGrows x := by
  intro state
  rcases h state with ⟨fault, state', hrun, hkept⟩ | ⟨a, state', opsLog, hrun, -, hedited⟩
  · rw [hrun]
    exact hkept.grows
  · rw [hrun]
    exact hedited.grows

omit [LawfulPrimitives] in
theorem mountGrows_addOwner (peer : PublicKey) :
    EStateM.Preserves MountGrows (addOwner peer) := by
  apply mountGrows_bind (mountGrows_onBlobs (grows_newSecretShare _ _))
  exact fun _ => mountGrows_modifyInner _

theorem mountGrows_run (action : MountAction) :
    EStateM.Preserves MountGrows action.run := by
  cases action with
  | add path data => exact (records_add path data).grows
  | rm path => exact (records_rm path).grows
  | mkdir path => exact (records_mkdir path).grows
  | mv source target => exact (records_mv source target).grows
  | addOwner peer => exact mountGrows_addOwner peer
  | addMirror peer => exact fun state => Grows.refl state.world
  | save publish =>
      apply mountGrows_bind (mountGrows_save publish)
      exact fun _ => MountGrows.refl

omit [LawfulPrimitives] in
/-- A new owner gets a share, if its key is a point. -/
theorem addOwner_cases (peer : PublicKey) (state : MountState) :
    (∃ fault world', Grows state.world world' ∧
      (addOwner peer).run state = .error fault { state with world := world' }) ∨
    ∃ share world', (newSecretShare Secret.default peer).run state.world = .ok share world' ∧
      Grows state.world world' ∧
      (addOwner peer).run state = .ok () ⟨world', { state.inner with
        manifest := state.inner.manifest.addShare (Share.newOwner share peer) }⟩ := by
  unfold addOwner
  cases hwrap : (newSecretShare Secret.default peer).run state.world with
  | error fault world' =>
      left
      rw [EStateM.run_bind_of_error (run_onBlobs_of_error hwrap)]
      exact ⟨fault, world', (grows_newSecretShare _ _).of_error hwrap, rfl⟩
  | ok share world' =>
      right
      rw [EStateM.run_bind_of_ok (run_onBlobs_of_ok hwrap)]
      exact ⟨share, world', rfl, (grows_newSecretShare _ _).of_ok hwrap, rfl⟩

/-- A save that fails leaves the mount alone. -/
theorem saveAction_cases (publish : Bool) (state : MountState) :
    (∃ fault world', Grows state.world world' ∧
      (MountAction.save publish).run.run state = .error fault { state with world := world' }) ∨
    ∃ result state', (save publish).run state = .ok result state' ∧
      (MountAction.save publish).run.run state = .ok () state' := by
  rw [MountAction.run]
  cases hsave : (save publish).run state with
  | error fault state' =>
      left
      rw [EStateM.run_bind_of_error hsave]
      obtain ⟨world', hgrows, rfl⟩ := run_save_eq_error hsave
      exact ⟨fault, world', hgrows, rfl⟩
  | ok result state' =>
      right
      rw [EStateM.run_bind_of_ok hsave]
      exact ⟨result, state', rfl, rfl⟩

theorem grows_init (id : Uuid) (name : Name) (owner : SecretKey) :
    EStateM.Preserves Grows (init id name owner) := by
  apply grows_bind grows_generateSecret
  intro secret
  apply grows_bind (grows_putNodeInBlobs _ _)
  intro entryLink
  apply grows_bind (grows_newSecretShare _ _)
  intro share
  apply grows_bind (grows_putPinsInBlobs _)
  intro pinsLink
  apply grows_bind (grows_putManifestInBlobs _)
  exact fun _ => Grows.refl

/-! ## Invariants -/

/-- Properties of a mount and of a link in a world that every action keeps, as long as
the operations on mounts are allowed. -/
structure SystemInvariant (allowed : MountState → MountAction → Prop)
    (mountOk : MountState → Prop) (linkOk : World → Link → Prop) : Prop where
  mount_grows : ∀ {world world' inner}, Grows world world' →
    mountOk ⟨world, inner⟩ → mountOk ⟨world', inner⟩
  link_grows : ∀ {world world' link}, Grows world world' →
    linkOk world link → linkOk world' link
  init : ∀ {id name owner world inner world'},
    (init id name owner).run world = .ok inner world' →
    mountOk ⟨world', inner⟩ ∧ linkOk world' inner.link
  load : ∀ {world link secretKey inner}, linkOk world link →
    load world.blobs link secretKey = .ok inner → mountOk ⟨world, inner⟩
  operate : ∀ {state action}, allowed state action → mountOk state →
    linkOk state.world state.inner.link →
    mountOk (action.run.run state).state ∧
      linkOk (action.run.run state).state.world (action.run.run state).state.inner.link
  mergeFrom : ∀ {state} fuel incoming resolver, mountOk state →
    linkOk state.world state.inner.link →
    mountOk ((mergeFrom fuel incoming resolver).run state).state ∧
      linkOk ((mergeFrom fuel incoming resolver).run state).state.world
        ((mergeFrom fuel incoming resolver).run state).state.inner.link

namespace MountSystem

/-- The properties hold of all mounts and links of the system. -/
structure Holds (system : MountSystem) (mountOk : MountState → Prop)
    (linkOk : World → Link → Prop) : Prop where
  mounts : ∀ inner ∈ system.mounts, mountOk ⟨system.world, inner⟩
  links : ∀ link ∈ system.links, linkOk system.world link
  known : ∀ inner ∈ system.mounts, inner.link ∈ system.links

def Allows (system : MountSystem) (allowed : MountState → MountAction → Prop) :
    SystemAction → Prop
  | .operate mount action => ∀ inner, system.mounts[mount]? = some inner →
      allowed ⟨system.world, inner⟩ action
  | _ => True

omit [LawfulPrimitives] in
theorem allows_true (system : MountSystem) (action : SystemAction) :
    system.Allows (fun _ _ => True) action := by
  cases action <;> simp [Allows]

section

variable {system : MountSystem} {allowed : MountState → MountAction → Prop}
  {mountOk : MountState → Prop} {linkOk : World → Link → Prop}

omit [LawfulPrimitives] in
theorem Holds.grows (h : system.Holds mountOk linkOk)
    (hinv : SystemInvariant allowed mountOk linkOk) {world : World}
    (hgrows : Grows system.world world) :
    Holds { system with world := world } mountOk linkOk :=
  ⟨fun inner hinner => hinv.mount_grows hgrows (h.mounts inner hinner),
    fun link hlink => hinv.link_grows hgrows (h.links link hlink), h.known⟩

omit [LawfulPrimitives] in
theorem Holds.enter (h : system.Holds mountOk linkOk)
    (hinv : SystemInvariant allowed mountOk linkOk) {state : MountState}
    (hgrows : Grows system.world state.world) (hmount : mountOk state)
    (hlink : linkOk state.world state.inner.link) :
    (system.enter state).Holds mountOk linkOk := by
  have hold := h.grows hinv hgrows
  refine ⟨?_, ?_, ?_⟩
  · intro inner hinner
    rcases List.mem_append.mp hinner with hmem | hnew
    · exact hold.mounts inner hmem
    · rw [List.mem_singleton.mp hnew]
      exact hmount
  · intro link hmem
    rcases List.mem_append.mp hmem with hmem | hnew
    · exact hold.links link hmem
    · rw [List.mem_singleton.mp hnew]
      exact hlink
  · intro inner hinner
    rcases List.mem_append.mp hinner with hmem | hnew
    · exact List.mem_append_left _ (h.known inner hmem)
    · rw [List.mem_singleton.mp hnew]
      exact List.mem_append_right _ (List.mem_singleton_self _)

omit [LawfulPrimitives] in
theorem Holds.update (h : system.Holds mountOk linkOk)
    (hinv : SystemInvariant allowed mountOk linkOk) {mount : ℕ} {state : MountState}
    (hgrows : Grows system.world state.world) (hmount : mountOk state)
    (hlink : linkOk state.world state.inner.link) :
    (system.update mount state).Holds mountOk linkOk := by
  have hold := h.grows hinv hgrows
  refine ⟨?_, ?_, ?_⟩
  · intro inner hinner
    rcases List.mem_or_eq_of_mem_set hinner with hmem | rfl
    · exact hold.mounts inner hmem
    · exact hmount
  · intro link hmem
    rcases List.mem_append.mp hmem with hmem | hnew
    · exact hold.links link hmem
    · rw [List.mem_singleton.mp hnew]
      exact hlink
  · intro inner hinner
    rcases List.mem_or_eq_of_mem_set hinner with hmem | rfl
    · exact List.mem_append_left _ (h.known inner hmem)
    · exact List.mem_append_right _ (List.mem_singleton_self _)

theorem Holds.step (h : system.Holds mountOk linkOk)
    (hinv : SystemInvariant allowed mountOk linkOk) {action : SystemAction}
    (hallowed : system.Allows allowed action) :
    (system.step action).Holds mountOk linkOk := by
  cases action with
  | init id name owner =>
      rw [MountSystem.step]
      cases hrun : (JaxFs.init id name owner).run system.world with
      | ok inner world =>
          obtain ⟨hmount, hlink⟩ := hinv.init hrun
          exact h.enter hinv ((grows_init id name owner).of_ok hrun) hmount hlink
      | error fault world =>
          exact h.grows hinv ((grows_init id name owner).of_error hrun)
  | load version secretKey =>
      rw [MountSystem.step]
      cases hlink : system.links[version]? with
      | none => exact h
      | some link =>
          have hok := h.links link (List.mem_of_getElem? hlink)
          dsimp only
          cases hload : JaxFs.load system.world.blobs link secretKey with
          | error fault => exact h
          | ok inner =>
              have hat : inner.link = link := by
                obtain ⟨manifest, secret, pins, entry, opsLog, -, -, -, -, -, rfl⟩ :=
                  load_eq_ok_iff.mp hload
                rfl
              exact h.enter hinv (Grows.refl _) (hinv.load hok hload) (hat ▸ hok)
  | operate mount operation =>
      rw [MountSystem.step]
      cases hmount : system.mounts[mount]? with
      | none => exact h
      | some inner =>
          have hmem := List.mem_of_getElem? hmount
          obtain ⟨hok, hlink⟩ := hinv.operate (hallowed inner hmount) (h.mounts inner hmem)
            (h.links _ (h.known inner hmem))
          exact h.update hinv (mountGrows_run operation ⟨system.world, inner⟩) hok hlink
  | mergeFrom mount incoming fuel resolver =>
      rw [MountSystem.step]
      cases hmount : system.mounts[mount]? with
      | none => exact h
      | some inner =>
          cases hincoming : system.mounts[incoming]? with
          | none => exact h
          | some other =>
              have hmem := List.mem_of_getElem? hmount
              obtain ⟨hok, hlink⟩ := hinv.mergeFrom fuel other resolver
                (h.mounts inner hmem) (h.links _ (h.known inner hmem))
              exact h.update hinv
                (mountGrows_mergeFrom fuel other resolver ⟨system.world, inner⟩) hok hlink

omit [LawfulPrimitives] in
theorem holds_start (world : World) : (start world).Holds mountOk linkOk := by
  constructor <;> simp [start]

/-- The rule for runs. -/
theorem holds_run (hinv : SystemInvariant allowed mountOk linkOk) (world : World)
    {actions : List SystemAction}
    (hallowed : AlongRun step (fun system => system.Allows allowed) (start world) actions) :
    ((start world).run actions).Holds mountOk linkOk := by
  have hstep : ∀ system action, Holds system mountOk linkOk →
      system.Allows allowed action → (system.step action).Holds mountOk linkOk :=
    fun _ _ hholds haction => hholds.step hinv haction
  exact hallowed.invariant hstep (holds_start world)

end

end MountSystem

end

end JaxFs

import JaxFs.RefreshLog

/-!
# Local work and refreshes

What becomes of the pending operations and the files of a live mount that is
refreshed.  A merge that succeeds stores the operations and keeps every file.  One
that fails gives the mount up for the head of the log, so whatever the head does not
have is lost.  The merge fails when the histories cannot be read, when a resolved
operation is blocked in the tree of the mount, and when the version cannot be stored.
-/

namespace JaxFs

open BucketLogProvider

section

variable [P : Primitives] {σ : Type}

/-! ## What is to be kept -/

/-- The operation removes, moves or replaces what is at the path. -/
def Displaces (op : PathOperation) (path : Path) : Prop :=
  match op.opType with
  | .remove => op.path <+: path.tail
  | .mv source => source <+: path.tail ∨ op.path = path.tail
  | .add => op.path = path.tail
  | .mkdir => False

/-- A merged operation removes, moves or replaces what is at the path. -/
def Displaced (histories : Except Fault (PathOpLog × MergeResult)) (path : Path) : Prop :=
  ∃ mergedOps result, histories = .ok (mergedOps, result) ∧
    ∃ op ∈ mergedOps, Displaces op path

/-- The versions that a refresh has stored. -/
def Refresh.versions : Refresh → List Link
  | .reloaded => []
  | .merged _ link saved => link :: saved.toOption.toList
  | .mergeFailed _ => []

/-- Every pending operation is still pending or in a stored version, and every file
that was not displaced can be read as before. -/
structure Kept (before : MountState) (histories : Except Fault (PathOpLog × MergeResult))
    (versions : List Link) (after : MountState) : Prop where
  pending : ∀ op ∈ before.inner.opsLog, op ∈ after.inner.opsLog ∨
    ∃ link ∈ versions, PersistedIn after.world.blobs link op
  files : ∀ path data, before.cat path = .ok data →
    after.cat path = .ok data ∨ Displaced histories path

/-- The histories of a turn, merged. -/
def turnHistories (state : PeerMount σ) (incoming : MountInner) (fuel : ℕ) :
    Except Fault (PathOpLog × MergeResult) :=
  mergeHistories state.inner incoming state.peer.world.blobs fuel (conflictFile 8)

/-! ## When it is kept -/

/-- The stores have every blob of the two trees, and the walks along the chains come
to an end. -/
structure Settled (state : PeerMount σ) (incoming : MountInner) (fuel : ℕ) : Prop where
  complete : Complete state.peer.world.blobs state.inner.entry
  headComplete : Complete state.peer.world.blobs incoming.entry
  walks : ∀ fault, turnHistories state incoming fuel = .error fault →
    ∃ error, fault = .error error

/-! ## Growth over a turn -/

theorem Kept.grows {before after : MountState} {versions : List Link}
    {histories : Except Fault (PathOpLog × MergeResult)}
    (h : Kept before histories versions after) {world' : World}
    (hgrows : Grows after.world world') :
    Kept before histories versions { after with world := world' } := by
  constructor
  · intro op hop
    rcases h.pending op hop with hstill | ⟨link, hlink, hsaved⟩
    · exact Or.inl hstill
    · exact Or.inr ⟨link, hlink, hgrows.persistedIn hsaved⟩
  · intro path data hdata
    rcases h.files path data hdata with hread | hdisplaced
    · left
      exact cat_of_files hgrows.blobs (fun _ _ hlink _ => hgrows.findLink hlink) hread
    · exact Or.inr hdisplaced

/-- The store of the peer only grows. -/
def PeerGrows (state state' : PeerMount σ) : Prop :=
  Grows state.peer.world state'.peer.world

theorem PeerGrows.refl (state : PeerMount σ) : PeerGrows state state :=
  Grows.refl state.peer.world

theorem peerGrows_onMount {α : Type} {x : MountM α} (hx : EStateM.Preserves MountGrows x) :
    EStateM.Preserves (@PeerGrows _ σ) (onMount x) :=
  hx.zoom (fun _ _ h => h)

variable [LawfulPrimitives] [BucketLogProvider σ]

/-- A save stores what it stores, and leaves the tree alone. -/
theorem saveMount_keeps_tree (env : PeerEnv) (publish : Bool) (state : PeerMount σ) :
    PeerGrows state ((saveMount env publish).run state).state ∧
      ((saveMount env publish).run state).state.inner.entry = state.inner.entry := by
  cases hsave : (save publish).run state.mount with
  | ok result mount =>
      obtain ⟨link, previousLink, height⟩ := result
      have hmount := @mount_saveMount_of_save _ _ _ env _ state _ _ _ _ hsave
      obtain ⟨manifest, world', hversion, -, hafter⟩ := run_save_eq_ok hsave
      have hgrows := (grows_saveVersion _ _).of_ok hversion
      rw [hafter] at hmount
      have hworld := congrArg MountState.world hmount
      have hinner := congrArg MountState.inner hmount
      constructor
      · unfold PeerGrows
        change Grows state.mount.world (((saveMount env publish).run state).state.mount).world
        rw [hworld]
        exact hgrows
      · change (((saveMount env publish).run state).state.mount).inner.entry = _
        rw [hinner]
        rfl
  | error fault mount =>
      obtain ⟨world', hgrows, hafter⟩ := run_save_eq_error hsave
      have hrun : (saveMount env publish).run state = .error fault (state.setMount mount) := by
        unfold saveMount
        rw [run_getPeer_bind, EStateM.run_bind_of_error (run_onMount_of_error hsave)]
      rw [hrun, hafter]
      exact ⟨hgrows, rfl⟩

variable {env : PeerEnv} {fuel : ℕ} {bucketId : Uuid}

/-- The store of the manager only grows. -/
def ManagerGrows (state state' : ManagerState σ) : Prop :=
  Grows state.peer.world state'.peer.world

omit [LawfulPrimitives] [BucketLogProvider σ] in
theorem ManagerGrows.trans (state state' state'' : ManagerState σ)
    (h : ManagerGrows state state') (h' : ManagerGrows state' state'') :
    ManagerGrows state state'' :=
  Grows.trans h h'

section

variable {state : PeerMount σ} {incoming : MountInner}

end

/-! ## The whole call -/

section

variable {mountId : Uuid} {order rest : List Uuid} {state before : ManagerState σ}
  {live : LiveMount} {refresh : Refresh} {after : PeerMount σ}

end

end

namespace Reference

end Reference

end JaxFs

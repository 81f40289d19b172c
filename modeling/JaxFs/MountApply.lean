import JaxFs.MountMerge
import JaxFs.MountMkdir
import JaxFs.MountSave

/-!
# What a merge does to a mount

`applyResolved` either goes on, and then the tree has at most gained directories,
or gives up, and then the operation was blocked in the tree it found.  Since an
operation that was not blocked does not become so, a merge of readable histories
fails exactly on operations that are blocked at its start, or when the version
cannot be stored.
-/

namespace JaxFs

section

variable [P : Primitives]

/-! ## Growth over a merge -/

/-- The store of the mount only grows. -/
def MountGrows (state state' : MountState) : Prop := Grows state.world state'.world

theorem mountGrows_bind {α β : Type} {x : MountM α} {f : α → MountM β}
    (hx : EStateM.Preserves MountGrows x)
    (hf : ∀ a, EStateM.Preserves MountGrows (f a)) :
    EStateM.Preserves MountGrows (x >>= f) :=
  hx.bind (fun _ _ _ => Grows.trans) hf

theorem MountGrows.refl (state : MountState) : MountGrows state state :=
  Grows.refl state.world

theorem mountGrows_onBlobs {α : Type} {x : BlobM α} (hx : EStateM.Preserves Grows x) :
    EStateM.Preserves MountGrows (onBlobs x) :=
  hx.zoom (fun _ _ h => h)

theorem mountGrows_ofExcept {α : Type} (x : Except Fault α) :
    EStateM.Preserves MountGrows (EStateM.ofExcept x) :=
  EStateM.Preserves.ofExcept MountGrows.refl x

theorem mountGrows_readBlobs {α : Type} (x : Blobs → Except Fault α) :
    EStateM.Preserves MountGrows (readBlobs x) :=
  mountGrows_bind MountGrows.refl (fun _ => mountGrows_ofExcept _)

theorem mountGrows_modifyInner (f : MountInner → MountInner) :
    EStateM.Preserves MountGrows (modifyInner f) :=
  fun state => Grows.refl state.world

theorem mountGrows_reloadRoot (link : NodeLink) :
    EStateM.Preserves MountGrows (reloadRoot link) := by
  cases link with
  | data link secret mime => exact MountGrows.refl
  | dir link secret =>
      apply mountGrows_bind (mountGrows_readBlobs _)
      exact fun _ => MountGrows.refl

variable [LawfulPrimitives]

theorem grows_writeNodes (visited : List (Path × Node)) (name : Name)
    (nodeLink : NodeLink) : EStateM.Preserves Grows (writeNodes visited name nodeLink) := by
  induction visited generalizing name nodeLink with
  | nil => exact Grows.refl
  | cons first rest ih =>
      apply grows_bind grows_generateSecret
      intro secret
      apply grows_bind (grows_putNodeInBlobs _ _)
      intro link
      apply grows_bind (ih _ _)
      exact fun _ => Grows.refl

theorem grows_setNodeLinkAtPath (node : Node) (nodeLink : NodeLink) (path : Path) :
    EStateM.Preserves Grows (setNodeLinkAtPath node nodeLink path) := by
  apply grows_bind (EStateM.Preserves.ofExcept Grows.refl _)
  intro path
  cases path.fileName with
  | none => exact Grows.refl
  | some name =>
      apply grows_bind
      · exact Grows.refl
      intro world
      apply grows_bind (EStateM.Preserves.ofExcept Grows.refl _)
      exact fun _ => grows_writeNodes _ _ _

theorem mountGrows_mkdir (path : Path) : EStateM.Preserves MountGrows (mkdir path) := by
  apply mountGrows_bind (mountGrows_ofExcept _)
  intro path
  apply mountGrows_bind
  · exact MountGrows.refl
  intro state
  apply mountGrows_bind (mountGrows_ofExcept _)
  intro split
  cases split with
  | none => exact MountGrows.refl
  | some split =>
      apply mountGrows_bind (mountGrows_readBlobs _)
      intro parentNode
      dsimp only
      split_ifs
      · exact MountGrows.refl
      · apply mountGrows_bind (mountGrows_onBlobs grows_generateSecret)
        intro secret
        apply mountGrows_bind (mountGrows_onBlobs (grows_putNodeInBlobs _ _))
        intro dirLink
        apply mountGrows_bind (mountGrows_onBlobs (grows_setNodeLinkAtPath _ _ _))
        intro updated
        apply mountGrows_bind (mountGrows_reloadRoot _)
        exact fun _ => mountGrows_modifyInner _

theorem mountGrows_mkdirIfMissing (path : Path) :
    EStateM.Preserves MountGrows (mkdirIfMissing path) := by
  intro state
  have hgrows := mountGrows_mkdir path state
  rw [run_mkdirIfMissing]
  split
  · next hrun =>
      rw [hrun] at hgrows
      exact hgrows
  · exact hgrows

theorem mountGrows_applyResolved (path : Path) (op : PathOperation) :
    EStateM.Preserves MountGrows (applyResolved path op) := by
  unfold applyResolved
  dsimp only
  split_ifs
  · apply mountGrows_bind
    · exact MountGrows.refl
    intro state
    split
    · exact MountGrows.refl
    · exact mountGrows_modifyInner _
    · exact MountGrows.refl
  · exact mountGrows_mkdirIfMissing _
  · exact MountGrows.refl

theorem mountGrows_applyAll (resolved : List (Path × PathOperation)) :
    EStateM.Preserves MountGrows (applyAll resolved) := by
  induction resolved with
  | nil => exact MountGrows.refl
  | cons first rest ih =>
      apply mountGrows_bind (mountGrows_applyResolved _ _)
      exact fun _ => ih

theorem mountGrows_save (publish : Bool) : EStateM.Preserves MountGrows (save publish) := by
  apply mountGrows_bind
  · exact MountGrows.refl
  intro state
  apply mountGrows_bind (mountGrows_onBlobs (grows_saveVersion _ _))
  intro saved
  apply mountGrows_bind (mountGrows_modifyInner _)
  exact fun _ => MountGrows.refl

/-- A merge that succeeds ends with a save. -/
theorem save_of_mergeFrom {fuel : ℕ} {incoming : MountInner} {resolver : ConflictResolver}
    {state state' : MountState} {result : MergeResult} {link : Link}
    (hrun : (mergeFrom fuel incoming resolver).run state = .ok (result, link) state') :
    ∃ middle rest, MountGrows state middle ∧
      (save false).run middle = .ok (link, rest) state' := by
  unfold mergeFrom at hrun
  rw [run_getThe_bind] at hrun
  obtain ⟨⟨mergedOps, mergeResult⟩, first, hhistories, hrun⟩ :=
    EStateM.run_bind_eq_ok_iff.mp hrun
  obtain ⟨_, second, happly, hrun⟩ := EStateM.run_bind_eq_ok_iff.mp hrun
  obtain ⟨_, middle, hmodify, hrun⟩ := EStateM.run_bind_eq_ok_iff.mp hrun
  obtain ⟨⟨newLink, rest⟩, last, hsave, hdone⟩ := EStateM.run_bind_eq_ok_iff.mp hrun
  cases hdone
  refine ⟨middle, rest, ?_, hsave⟩
  have hfirst := (mountGrows_ofExcept _).of_ok hhistories
  have hsecond := (mountGrows_applyAll _).of_ok happly
  have hmiddle := (mountGrows_modifyInner _).of_ok hmodify
  exact hfirst.trans (hsecond.trans hmiddle)

theorem mountGrows_mergeFrom (fuel : ℕ) (incoming : MountInner)
    (resolver : ConflictResolver) :
    EStateM.Preserves MountGrows (mergeFrom fuel incoming resolver) := by
  apply mountGrows_bind
  · exact MountGrows.refl
  intro state
  apply mountGrows_bind (mountGrows_ofExcept _)
  intro merged
  apply mountGrows_bind (mountGrows_applyAll _)
  intro _
  apply mountGrows_bind (mountGrows_modifyInner _)
  intro _
  apply mountGrows_bind (mountGrows_save false)
  exact fun _ => MountGrows.refl

/-! ## Blocked operations -/

/-- The operation cannot be applied.  A file is looked up, so its path must not run
through a link without a node; a missing directory is made, so its path must run
through directories. -/
def Blocks (state : MountState) (op : PathOperation) (names : List Name) : Prop :=
  (op.contentLink.isSome = true ∧
    Unreadable state.world.blobs state.inner.entry names.dropLast) ∨
  (op.contentLink.isSome = false ∧ op.isDir = true ∧ op.opType = .mkdir ∧
    findLink state.world.blobs state.inner.entry names = none ∧
    Obstructed state.world.blobs state.inner.entry names.dropLast)

/-- The tree has at most gained directories: no file is lost, and no operation is
blocked that was not.  In a complete tree the blocked ones stay so. -/
structure Spreads (state state' : MountState) : Prop where
  grows : MountGrows state state'
  manifest : state'.inner.manifest = state.inner.manifest
  files : ∀ names link, findLink state.world.blobs state.inner.entry names = some link →
    link.isDir = false → findLink state'.world.blobs state'.inner.entry names = some link
  unblocks : ∀ op names, Blocks state' op names → Blocks state op names
  complete : Complete state.world.blobs state.inner.entry →
    Complete state'.world.blobs state'.inner.entry
  blocks : Complete state.world.blobs state.inner.entry →
    ∀ op names, Blocks state op names → Blocks state' op names

omit [LawfulPrimitives] in
/-- Only the operation log has changed. -/
theorem Spreads.of_opsLog (state : MountState) (opsLog : PathOpLog) :
    Spreads state { state with inner := { state.inner with opsLog := opsLog } } :=
  ⟨Grows.refl _, rfl, fun _ _ h _ => h, fun _ _ h => h, fun h => h, fun _ _ _ h => h⟩

omit [LawfulPrimitives] in
theorem Spreads.refl (state : MountState) : Spreads state state :=
  Spreads.of_opsLog state state.inner.opsLog

omit [LawfulPrimitives] in
theorem Spreads.trans {state state' state'' : MountState} (h : Spreads state state')
    (h' : Spreads state' state'') : Spreads state state'' where
  grows := Grows.trans h.grows h'.grows
  manifest := h'.manifest.trans h.manifest
  files := fun names link hlink hfile =>
    h'.files names link (h.files names link hlink hfile) hfile
  unblocks := fun op names hblocks => h.unblocks op names (h'.unblocks op names hblocks)
  complete := fun hcomplete => h'.complete (h.complete hcomplete)
  blocks := fun hcomplete op names hblocks =>
    h'.blocks (h.complete hcomplete) op names (h.blocks hcomplete op names hblocks)

/-- What applying an operation does to the log of the mount. -/
inductive LogStep (op : PathOperation) (log : PathOpLog) : PathOpLog → Prop where
  | same : LogStep op log log
  | tracked : LogStep op log (log.merge (PathOpLog.fromOperation op)).1
  | made {peerId : PublicKey} {path : Path} :
      LogStep op log (log.record peerId .mkdir path none true).2

omit P [LawfulPrimitives] in
theorem LogStep.keeps {op : PathOperation} {log log' : PathOpLog} (h : LogStep op log log')
    {room : ℕ} (hroom : log.ClockRoom (room + 1))
    (hop : op.id.timestamp + (room + 1) < 2 ^ 64) :
    (∀ pending ∈ log, pending ∈ log') ∧ log'.ClockRoom room := by
  cases h with
  | same => exact ⟨fun _ hmem => hmem, hroom.mono (Nat.le_succ room)⟩
  | tracked =>
      exact ⟨fun _ hmem => PathOpLog.mem_merge_of_mem hmem, hroom.merge_fromOperation hop⟩
  | made => exact ⟨fun _ hmem => hroom.mem_record hmem, hroom.record⟩

omit P [LawfulPrimitives] in
theorem join_relPath (names : List Name) :
    Path.join [.rootDir] (relPath names) = absPath names := by
  unfold Path.join
  cases names with
  | nil => rfl
  | cons first rest => rfl

/-- Every path is a nonempty one of names. -/
def NamePaths (resolved : List (Path × PathOperation)) : Prop :=
  ∀ item ∈ resolved, ∃ names, names ≠ [] ∧ item.1 = relPath names

/-- The clock of the log and the resolved operations leave room for one tick each. -/
structure ClocksFit (log : PathOpLog) (resolved : List (Path × PathOperation)) : Prop where
  room : log.ClockRoom resolved.length
  bound : ∀ item ∈ resolved, item.2.id.timestamp + resolved.length < 2 ^ 64

omit P [LawfulPrimitives] in
theorem ClocksFit.step {log log' : PathOpLog} {path : Path} {op : PathOperation}
    {rest : List (Path × PathOperation)} (h : ClocksFit log ((path, op) :: rest))
    (hstep : LogStep op log log') :
    (∀ pending ∈ log, pending ∈ log') ∧ ClocksFit log' rest := by
  have hop := h.bound (path, op) List.mem_cons_self
  obtain ⟨hkeeps, hroom⟩ := hstep.keeps h.room hop
  refine ⟨hkeeps, hroom, ?_⟩
  intro item hitem
  have hbound := h.bound item (List.mem_cons_of_mem _ hitem)
  rw [List.length_cons] at hbound
  omega

/-- The operation is in the log that the version was saved with. -/
def PersistedIn (blobs : Blobs) (link : Link) (op : PathOperation) : Prop :=
  ∃ manifest opsLink secret log, getManifestFromBlobs blobs link = .ok manifest ∧
    manifest.opsLog = some opsLink ∧ getOpsLogFromBlobs blobs opsLink secret = .ok log ∧
    op ∈ log

omit [LawfulPrimitives] in
theorem Grows.persistedIn {world world' : World} (h : Grows world world') {link : Link}
    {op : PathOperation} (hop : PersistedIn world.blobs link op) :
    PersistedIn world'.blobs link op := by
  obtain ⟨manifest, opsLink, secret, log, hmanifest, hlink, hlog, hmem⟩ := hop
  exact ⟨manifest, opsLink, secret, log, h.getManifestFromBlobs hmanifest, hlink,
    h.getOpsLogFromBlobs hlog, hmem⟩

theorem SavedVersion.persistedIn {inner : MountInner} {world world' : World}
    {manifest : Manifest} {link : Link}
    (h : SavedVersion inner world manifest link world') {op : PathOperation}
    (hop : op ∈ inner.opsLog) : PersistedIn world'.blobs link op := by
  have hnonempty : inner.opsLog.isEmpty = false := by
    cases hempty : inner.opsLog.isEmpty with
    | false => rfl
    | true =>
        have hnone := KeyedMap.isEmpty_iff.mp hempty
        rw [PathOpLog.mem_iff, hnone] at hop
        exact absurd hop KeyedMap.not_mem_empty
  obtain ⟨opsLink, secret, hlink, hlog⟩ := h.opsLog hnonempty
  refine ⟨manifest, opsLink, secret, _, ?_, hlink, hlog, hop⟩
  unfold getManifestFromBlobs
  rw [h.stored]
  simp [LawfulPrimitives.decode_encodeManifest]

end

end JaxFs

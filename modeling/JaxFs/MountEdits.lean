import JaxFs.MountApply

/-!
# What an operation leaves alone

`add`, `rm`, `mkdir` and `mv` work on the tree, the pins and the operation log of a
mount.  The version it is at, its manifest and its keys stay, and so does the store,
which only grows.  An operation that succeeds has recorded exactly one operation;
one that fails has recorded none.
-/

namespace JaxFs

section

variable [P : Primitives]

/-- The mount is at the same version, with the given operation log. -/
structure Edited (opsLog : PathOpLog) (state state' : MountState) : Prop where
  grows : Grows state.world state'.world
  link : state'.inner.link = state.inner.link
  manifest : state'.inner.manifest = state.inner.manifest
  height : state'.inner.height = state.inner.height
  peerId : state'.inner.peerId = state.inner.peerId
  secretKey : state'.inner.secretKey = state.inner.secretKey
  opsLog : state'.inner.opsLog = opsLog

/-- Nothing has been recorded. -/
def Untouched (state state' : MountState) : Prop :=
  Edited state.inner.opsLog state state'

theorem Untouched.refl (state : MountState) : Untouched state state :=
  ⟨Grows.refl _, rfl, rfl, rfl, rfl, rfl, rfl⟩

theorem Untouched.trans_edited {opsLog : PathOpLog} {state state' state'' : MountState}
    (h : Untouched state state') (h' : Edited opsLog state' state'') :
    Edited opsLog state state'' where
  grows := h.grows.trans h'.grows
  link := h'.link.trans h.link
  manifest := h'.manifest.trans h.manifest
  height := h'.height.trans h.height
  peerId := h'.peerId.trans h.peerId
  secretKey := h'.secretKey.trans h.secretKey
  opsLog := h'.opsLog

theorem Untouched.trans {state state' state'' : MountState} (h : Untouched state state')
    (h' : Untouched state' state'') : Untouched state state'' := by
  have hopsLog : state'.inner.opsLog = state.inner.opsLog := h.opsLog
  unfold Untouched at h' ⊢
  rw [← hopsLog]
  exact h.trans_edited h'

/-- The log with one operation of the mount more. -/
def RecordedOp (state : MountState) (opsLog : PathOpLog) : Prop :=
  ∃ opType path contentLink isDir, opsLog =
    (state.inner.opsLog.record state.inner.peerId opType path contentLink isDir).2

/-- The outcomes of an operation that records when it succeeds. -/
def Records {α : Type} (x : MountM α) : Prop :=
  ∀ state,
    (∃ fault state', x.run state = .error fault state' ∧ Untouched state state') ∨
    ∃ a state' opsLog, x.run state = .ok a state' ∧ RecordedOp state opsLog ∧
      Edited opsLog state state'

/-! ## Parts that record nothing -/

theorem untouched_bind {α β : Type} {x : MountM α} {f : α → MountM β}
    (hx : EStateM.Preserves Untouched x) (hf : ∀ a, EStateM.Preserves Untouched (f a)) :
    EStateM.Preserves Untouched (x >>= f) :=
  hx.bind (fun _ _ _ => Untouched.trans) hf

theorem untouched_onBlobs {α : Type} {x : BlobM α} (hx : EStateM.Preserves Grows x) :
    EStateM.Preserves Untouched (onBlobs x) :=
  hx.zoom (fun _ _ h => ⟨h, rfl, rfl, rfl, rfl, rfl, rfl⟩)

theorem untouched_ofExcept {α : Type} (x : Except Fault α) :
    EStateM.Preserves Untouched (EStateM.ofExcept x) :=
  EStateM.Preserves.ofExcept Untouched.refl x

theorem untouched_readBlobs {α : Type} (x : Blobs → Except Fault α) :
    EStateM.Preserves Untouched (readBlobs x) :=
  untouched_bind Untouched.refl (fun _ => untouched_ofExcept _)

theorem untouched_reloadRoot (link : NodeLink) :
    EStateM.Preserves Untouched (reloadRoot link) := by
  cases link with
  | data link secret mime => exact Untouched.refl
  | dir link secret =>
      apply untouched_bind (untouched_readBlobs _)
      exact fun _ => Untouched.refl

variable [LawfulPrimitives]

/-- A removal only grows the store and gives the mount more pins and another root. -/
theorem preserves_replaceParent {rel : MountState → MountState → Prop}
    (hrefl : ∀ state, rel state state)
    (htrans : ∀ state state' state'', rel state state' → rel state' state'' →
      rel state state'')
    (hgrows : ∀ state world, Grows (MountState.world state) world →
      rel state { state with world := world })
    (htree : ∀ state hashes entry, rel state
      { state with inner := (state.inner.addPins hashes).setEntryNode entry })
    (entry : Node) (parentPath : Path) (parentNode : Node) :
    EStateM.Preserves rel (replaceParent entry parentPath parentNode) := by
  have hblobs : ∀ {α : Type} {x : BlobM α}, EStateM.Preserves Grows x →
      EStateM.Preserves rel (onBlobs x) := fun hx => hx.zoom hgrows
  have hmodify : ∀ (hashes : List Hash) (newEntry : MountInner → Node),
      EStateM.Preserves rel
        (modifyInner (fun inner => (inner.addPins hashes).setEntryNode (newEntry inner))) :=
    fun hashes newEntry state => htree state hashes (newEntry state.inner)
  have hreload : ∀ link, EStateM.Preserves rel (reloadRoot link) := by
    intro link
    cases link with
    | data link secret mime => exact hrefl
    | dir link secret =>
        apply EStateM.Preserves.bind htrans
        · apply EStateM.Preserves.bind htrans
          · exact hrefl
          · exact fun _ => EStateM.Preserves.ofExcept hrefl _
        · exact fun _ => hrefl
  unfold replaceParent
  split_ifs
  · apply EStateM.Preserves.bind htrans (hblobs grows_generateSecret)
    intro secret
    apply EStateM.Preserves.bind htrans (hblobs (grows_putNodeInBlobs _ _))
    exact fun _ => hmodify _ _
  · apply EStateM.Preserves.bind htrans (hblobs grows_generateSecret)
    intro secret
    apply EStateM.Preserves.bind htrans (hblobs (grows_putNodeInBlobs _ _))
    intro parentLink
    apply EStateM.Preserves.bind htrans (hblobs (grows_setNodeLinkAtPath _ _ _))
    intro updated
    apply EStateM.Preserves.bind htrans (hreload _)
    exact fun _ => hmodify _ _

theorem untouched_replaceParent (entry : Node) (parentPath : Path) (parentNode : Node) :
    EStateM.Preserves Untouched (replaceParent entry parentPath parentNode) := by
  apply preserves_replaceParent Untouched.refl (fun _ _ _ => Untouched.trans)
  · exact fun _ _ hgrows => ⟨hgrows, rfl, rfl, rfl, rfl, rfl, rfl⟩
  · exact fun _ _ _ => ⟨Grows.refl _, rfl, rfl, rfl, rfl, rfl, rfl⟩

/-! ## The operations -/

omit [LawfulPrimitives] in
theorem Records.bind {α β : Type} {x : MountM α} {f : α → MountM β}
    (hx : EStateM.Preserves Untouched x) (hf : ∀ a, Records (f a)) :
    Records (x >>= f) := by
  intro state
  cases hrun : x.run state with
  | error fault state' =>
      exact Or.inl ⟨fault, state', EStateM.run_bind_of_error hrun, hx.of_error hrun⟩
  | ok a middle =>
      have hmiddle : Untouched state middle := hx.of_ok hrun
      rw [EStateM.run_bind_of_ok hrun]
      rcases hf a middle with ⟨fault, state', hrest, hkept⟩ |
        ⟨b, state', opsLog, hrest, hrecorded, hedited⟩
      · exact Or.inl ⟨fault, state', hrest, hmiddle.trans hkept⟩
      · refine Or.inr ⟨b, state', opsLog, hrest, ?_, hmiddle.trans_edited hedited⟩
        obtain ⟨opType, path, contentLink, isDir, hopsLog⟩ := hrecorded
        rw [hmiddle.opsLog, hmiddle.peerId] at hopsLog
        exact ⟨opType, path, contentLink, isDir, hopsLog⟩

omit [LawfulPrimitives] in
theorem Records.throw {α : Type} (fault : Fault) : Records (throw fault : MountM α) :=
  fun state => Or.inl ⟨fault, state, rfl, Untouched.refl state⟩

omit [LawfulPrimitives] in
/-- The last step of an operation. -/
theorem Records.recordOp (hashes : List Hash) (entry : MountInner → Node) (opType : OpType)
    (path : Path) (contentLink : Option Link) (isDir : Bool) :
    Records (modifyInner (fun inner =>
      ((inner.addPins hashes).setEntryNode (entry inner)).recordOp opType path contentLink
        isDir)) := by
  intro state
  right
  exact ⟨(), _, _, rfl, ⟨opType, path, contentLink, isDir, rfl⟩,
    ⟨Grows.refl _, rfl, rfl, rfl, rfl, rfl, rfl⟩⟩

theorem records_add (path : Path) (data : Bytes) : Records (add path data) := by
  apply Records.bind (untouched_onBlobs grows_generateSecret)
  intro secret
  apply Records.bind (untouched_onBlobs (grows_encryptData _ _))
  intro encrypted
  apply Records.bind (untouched_onBlobs (grows_put _))
  intro hash
  apply Records.bind
  · exact Untouched.refl
  intro state
  apply Records.bind (untouched_onBlobs (grows_setNodeLinkAtPath _ _ _))
  intro updated
  apply Records.bind (untouched_reloadRoot _)
  intro newEntry
  apply Records.bind (untouched_ofExcept _)
  exact fun _ => Records.recordOp _ _ _ _ _ _

theorem records_mkdir (path : Path) : Records (mkdir path) := by
  apply Records.bind (untouched_ofExcept _)
  intro path
  apply Records.bind
  · exact Untouched.refl
  intro state
  apply Records.bind (untouched_ofExcept _)
  intro split
  cases split with
  | none => exact Records.throw _
  | some split =>
      apply Records.bind (untouched_readBlobs _)
      intro parentNode
      dsimp only
      split_ifs
      · exact Records.throw _
      · apply Records.bind (untouched_onBlobs grows_generateSecret)
        intro secret
        apply Records.bind (untouched_onBlobs (grows_putNodeInBlobs _ _))
        intro dirLink
        apply Records.bind (untouched_onBlobs (grows_setNodeLinkAtPath _ _ _))
        intro updated
        apply Records.bind (untouched_reloadRoot _)
        exact fun _ => Records.recordOp _ _ _ _ _ _

theorem records_rm (path : Path) : Records (rm path) := by
  apply Records.bind (untouched_ofExcept _)
  intro path
  split
  · exact Records.throw _
  · apply Records.bind
    · exact Untouched.refl
    intro state
    apply Records.bind (untouched_readBlobs _)
    intro parentNode
    split
    · exact Records.throw _
    · split
      · exact Records.throw _
      · apply Records.bind (untouched_replaceParent _ _ _)
        intro _ state
        exact Records.recordOp [] MountInner.entry _ _ _ _ state

theorem records_mvInsert (nodeLink : NodeLink) (sourceClean target targetClean : Path) :
    Records (mvInsert nodeLink sourceClean target targetClean) := by
  apply Records.bind
  · exact Untouched.refl
  intro state
  apply Records.bind (untouched_onBlobs (grows_setNodeLinkAtPath _ _ _))
  intro updated
  apply Records.bind (untouched_readBlobs _)
  exact fun _ => Records.recordOp _ _ _ _ _ _

theorem records_mv (source target : Path) : Records (mv source target) := by
  apply Records.bind (untouched_ofExcept _)
  intro sourceClean
  apply Records.bind (untouched_ofExcept _)
  intro targetClean
  split_ifs
  · exact Records.throw _
  · apply Records.bind
    · exact Untouched.refl
    intro state
    apply Records.bind (untouched_readBlobs _)
    intro nodeLink
    split
    · exact Records.throw _
    · split
      · exact Records.throw _
      · apply Records.bind (untouched_readBlobs _)
        intro parentNode
        split
        · exact Records.throw _
        · split
          · exact Records.throw _
          · apply Records.bind (untouched_replaceParent _ _ _)
            exact fun _ => records_mvInsert _ _ _ _
    · exact Records.throw _

/-! ## Merges -/

/-- The mount is at the same version. -/
def AtVersion (state state' : MountState) : Prop := ∃ opsLog, Edited opsLog state state'

omit [LawfulPrimitives] in
theorem AtVersion.refl (state : MountState) : AtVersion state state :=
  ⟨_, Untouched.refl state⟩

omit [LawfulPrimitives] in
theorem AtVersion.trans {state state' state'' : MountState} (h : AtVersion state state')
    (h' : AtVersion state' state'') : AtVersion state state'' := by
  obtain ⟨opsLog, hfirst⟩ := h
  obtain ⟨opsLog', hsecond⟩ := h'
  exact ⟨opsLog', hfirst.grows.trans hsecond.grows, hsecond.link.trans hfirst.link,
    hsecond.manifest.trans hfirst.manifest, hsecond.height.trans hfirst.height,
    hsecond.peerId.trans hfirst.peerId, hsecond.secretKey.trans hfirst.secretKey,
    hsecond.opsLog⟩

omit [LawfulPrimitives] in
theorem atVersion_bind {α β : Type} {x : MountM α} {f : α → MountM β}
    (hx : EStateM.Preserves AtVersion x) (hf : ∀ a, EStateM.Preserves AtVersion (f a)) :
    EStateM.Preserves AtVersion (x >>= f) :=
  hx.bind (fun _ _ _ => AtVersion.trans) hf

omit [LawfulPrimitives] in
theorem Records.atVersion {α : Type} {x : MountM α} (h : Records x) :
    EStateM.Preserves AtVersion x := by
  intro state
  rcases h state with ⟨fault, state', hrun, hkept⟩ | ⟨a, state', opsLog, hrun, -, hedited⟩
  · rw [hrun]
    exact ⟨_, hkept⟩
  · rw [hrun]
    exact ⟨opsLog, hedited⟩

omit [LawfulPrimitives] in
theorem atVersion_modifyLog (f : MountInner → PathOpLog) :
    EStateM.Preserves AtVersion (modifyInner (fun inner => { inner with opsLog := f inner })) :=
  fun _ => ⟨_, Grows.refl _, rfl, rfl, rfl, rfl, rfl, rfl⟩

theorem atVersion_applyResolved (path : Path) (op : PathOperation) :
    EStateM.Preserves AtVersion (applyResolved path op) := by
  unfold applyResolved
  dsimp only
  split_ifs
  · apply atVersion_bind
    · exact AtVersion.refl
    intro state
    split
    · exact AtVersion.refl
    · exact atVersion_modifyLog _
    · exact AtVersion.refl
  · intro state
    have hmkdir := (records_mkdir (Path.join [.rootDir] path)).atVersion state
    rw [run_mkdirIfMissing]
    split
    · next hrun =>
        rw [hrun] at hmkdir
        exact hmkdir
    · exact hmkdir
  · exact AtVersion.refl

theorem atVersion_applyAll (resolved : List (Path × PathOperation)) :
    EStateM.Preserves AtVersion (applyAll resolved) := by
  induction resolved with
  | nil => exact AtVersion.refl
  | cons first rest ih =>
      apply atVersion_bind (atVersion_applyResolved _ _)
      exact fun _ => ih

/-- The rule for merges: what the applied operations and a new log keep holds at the end,
or before the save that ends it. -/
theorem mergeFrom_keeps {inv : MountState → Prop} {state : MountState} (h : inv state)
    (happly : ∀ resolved, inv ((applyAll resolved).run state).state)
    (hlog : ∀ state' opsLog, inv state' →
      inv { state' with inner := { state'.inner with opsLog := opsLog } })
    (hgrows : ∀ state' world, inv state' → Grows state'.world world →
      inv { state' with world := world })
    (fuel : ℕ) (incoming : MountInner) (resolver : ConflictResolver) :
    inv ((mergeFrom fuel incoming resolver).run state).state ∨
    ∃ middle result, inv middle ∧ (save false).run middle =
      .ok result ((mergeFrom fuel incoming resolver).run state).state := by
  unfold mergeFrom
  rw [run_getThe_bind]
  cases hhistories : mergeHistories state.inner incoming state.world.blobs fuel resolver with
  | error fault =>
      left
      exact h
  | ok merged =>
      rw [EStateM.run_bind_of_ok (EStateM.run_ofExcept_ok merged state)]
      dsimp only
      have hfirst := happly merged.1.resolveAll.toList
      cases hrun : (applyResolvedState merged.1).run state with
      | error fault first =>
          left
          rw [EStateM.run_bind_of_error hrun]
          rw [applyResolvedState] at hrun
          rw [hrun] at hfirst
          exact hfirst
      | ok _ first =>
          rw [EStateM.run_bind_of_ok hrun]
          rw [applyResolvedState] at hrun
          rw [hrun] at hfirst
          let middle : MountState := ⟨first.world, { first.inner with
            opsLog := (first.inner.opsLog.merge merged.1).1 }⟩
          have hmiddle : inv middle := hlog first _ hfirst
          rw [EStateM.run_bind_of_ok (show (modifyInner _).run first = .ok () middle from rfl)]
          cases hsave : (save false).run middle with
          | error fault last =>
              left
              rw [EStateM.run_bind_of_error hsave]
              obtain ⟨world', hworld, rfl⟩ := run_save_eq_error hsave
              exact hgrows middle world' hmiddle hworld
          | ok result last =>
              right
              rw [EStateM.run_bind_of_ok hsave]
              exact ⟨middle, result, hmiddle, hsave⟩

/-- A merge leaves the mount at its version, or saves the next one. -/
theorem mergeFrom_outcome (fuel : ℕ) (incoming : MountInner) (resolver : ConflictResolver)
    (state : MountState) :
    AtVersion state ((mergeFrom fuel incoming resolver).run state).state ∨
    ∃ middle result, AtVersion state middle ∧ (save false).run middle =
      .ok result ((mergeFrom fuel incoming resolver).run state).state := by
  apply mergeFrom_keeps (AtVersion.refl state)
  · exact fun resolved => atVersion_applyAll resolved state
  · intro state' opsLog hat
    exact hat.trans (atVersion_modifyLog (fun _ => opsLog) state')
  · intro state' world hat hgrows
    exact hat.trans ⟨_, hgrows, rfl, rfl, rfl, rfl, rfl, rfl⟩

end

end JaxFs

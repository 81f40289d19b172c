import JaxFs.SharedMount

/-!
# Edits that share a mount

What an operation on a shared mount has achieved when it asks for the lock again, and
what the other operations may do to it in the meantime.  A draft that is written back
over the entry it was made from changes the mount at, above and below its own path only,
so what operations on other paths have done there stays.
-/

namespace JaxFs

section

variable [P : Primitives]

/-! ## Trees that agree below a path -/

/-- Neither path leads to the other. -/
def DisjointPaths (names names' : List Name) : Prop := ¬ names <+: names' ∧ ¬ names' <+: names

omit P in
theorem DisjointPaths.symm {names names' : List Name} (h : DisjointPaths names names') :
    DisjointPaths names' names :=
  ⟨h.2, h.1⟩

omit P in
/-- What lies below the one path is disjoint from the other as well. -/
theorem DisjointPaths.append {names path : List Name} (h : DisjointPaths names path)
    (rest : List Name) : DisjointPaths (names ++ rest) path := by
  constructor
  · exact fun hpre => h.1 ((List.prefix_append _ _).trans hpre)
  · intro hpre
    rcases List.prefix_or_prefix_of_prefix hpre (List.prefix_append names rest) with
      hbelow | habove
    · exact h.2 hbelow
    · exact h.1 habove

/-- The trees have the same links at and below the path, in every later store. -/
def AlikeAt (world : World) (names : List Name) (entry entry' : Node) : Prop :=
  ∀ later, Grows world later → ∀ rest,
    findLink later.blobs entry' (names ++ rest) = findLink later.blobs entry (names ++ rest)

/-- Nothing is at the path or below it, in every later store. -/
def GoneAt (world : World) (entry : Node) (names : List Name) : Prop :=
  ∀ later, Grows world later → ∀ rest, findLink later.blobs entry (names ++ rest) = none

section

variable {world world' : World} {names : List Name} {entry entry' entry'' : Node}

theorem AlikeAt.refl (world : World) (names : List Name) (entry : Node) :
    AlikeAt world names entry entry :=
  fun _ _ _ => rfl

theorem AlikeAt.grows (h : AlikeAt world names entry entry') (hgrows : Grows world world') :
    AlikeAt world' names entry entry' :=
  fun later hlater => h later (hgrows.trans hlater)

theorem AlikeAt.trans (h : AlikeAt world names entry entry')
    (h' : AlikeAt world names entry' entry'') : AlikeAt world names entry entry'' :=
  fun later hlater rest => (h' later hlater rest).trans (h later hlater rest)

theorem AlikeAt.findLink_eq (h : AlikeAt world names entry entry') :
    findLink world.blobs entry' names = findLink world.blobs entry names := by
  simpa using h world (Grows.refl world) []

theorem GoneAt.grows (h : GoneAt world entry names) (hgrows : Grows world world') :
    GoneAt world' entry names :=
  fun later hlater => h later (hgrows.trans hlater)

theorem GoneAt.alike (h : GoneAt world entry names) (halike : AlikeAt world names entry entry') :
    GoneAt world entry' names :=
  fun later hlater rest => (halike later hlater rest).trans (h later hlater rest)

end

/-! ## What a draft changes -/

/-- The draft has the link at the path. -/
def LinkDraft (world : World) (nodeLink : NodeLink) (names : List Name) (draft : Draft) : Prop :=
  ∃ parents name newEntry, names = parents ++ [name] ∧ draft.newEntry = some newEntry ∧
    Updated world.blobs nodeLink parents name draft.snapshot newEntry

/-- The draft has the tree without what was at the path. -/
def RemovalDraft (world : World) (names : List Name) (draft : Draft) : Prop :=
  ∃ parents name parentNode newEntry, names = parents ++ [name] ∧
    draft.newEntry = some newEntry ∧
    walkNode world.blobs draft.snapshot parents = some parentNode ∧
    ∀ later, Grows world later →
      NodeReplaced later.blobs parents (parentNode.del name).2 draft.snapshot newEntry

/-- The draft changes nothing outside the path, the way to it and what lies below it. -/
def Draft.Within (world : World) (names : List Name) (draft : Draft) : Prop :=
  ∀ path, DisjointPaths path names →
    AlikeAt world path draft.snapshot (draft.newEntry.getD draft.snapshot)

section

variable {world world' : World} {names : List Name} {nodeLink : NodeLink} {draft : Draft}

theorem LinkDraft.grows (h : LinkDraft world nodeLink names draft)
    (hgrows : Grows world world') : LinkDraft world' nodeLink names draft := by
  obtain ⟨parents, name, newEntry, hnames, hnew, hupdated⟩ := h
  exact ⟨parents, name, newEntry, hnames, hnew, hupdated.grows hgrows⟩

theorem RemovalDraft.grows (h : RemovalDraft world names draft) (hgrows : Grows world world') :
    RemovalDraft world' names draft := by
  obtain ⟨parents, name, parentNode, newEntry, hnames, hnew, hparent, hreplaced⟩ := h
  exact ⟨parents, name, parentNode, newEntry, hnames, hnew, hgrows.walkNode hparent,
    fun later hlater => hreplaced later (hgrows.trans hlater)⟩

theorem LinkDraft.findLink (h : LinkDraft world nodeLink names draft) :
    findLink world.blobs (draft.newEntry.getD draft.snapshot) names = some nodeLink := by
  obtain ⟨parents, name, newEntry, rfl, hnew, hupdated⟩ := h
  rw [hnew]
  exact hupdated.findLink_self

theorem LinkDraft.within (h : LinkDraft world nodeLink names draft) :
    draft.Within world names := by
  obtain ⟨parents, name, newEntry, rfl, hnew, hupdated⟩ := h
  intro path hpath later hlater rest
  rw [hnew]
  have hrest := hpath.append rest
  exact (hupdated.grows hlater).findLink_apart hrest.1 hrest.2

theorem RemovalDraft.gone (h : RemovalDraft world names draft) :
    GoneAt world (draft.newEntry.getD draft.snapshot) names := by
  obtain ⟨parents, name, parentNode, newEntry, rfl, hnew, hparent, hreplaced⟩ := h
  intro later hlater rest
  rw [hnew]
  exact findLink_removed (hreplaced later hlater) rest

theorem RemovalDraft.within (h : RemovalDraft world names draft) :
    draft.Within world names := by
  obtain ⟨parents, name, parentNode, newEntry, rfl, hnew, hparent, hreplaced⟩ := h
  intro path hpath later hlater rest
  rw [hnew]
  have hrest := hpath.append rest
  apply (hreplaced later hlater).findLink_of_del (hlater.walkNode hparent)
  · exact fun hpre => hrest.1 (hpre.trans (List.prefix_append _ _))
  · exact hrest.2

end

/-! ## Work without the lock -/

/-- The bytes of a file are stored. -/
def FileAt (world : World) (hash : Hash) (secret : Secret) (data : Bytes) : Prop :=
  ∃ blob, world.blobs hash = some blob ∧ secret.decrypt blob = some data

theorem FileAt.grows {world world' : World} {hash : Hash} {secret : Secret} {data : Bytes}
    (h : FileAt world hash secret data) (hgrows : Grows world world') :
    FileAt world' hash secret data := by
  obtain ⟨blob, hblob, hdata⟩ := h
  exact ⟨blob, hgrows.blobs _ _ hblob, hdata⟩

/-- The program only adds to the store, and what it returns meets the condition. -/
def OffLock {α : Type} (x : MountM α) (state : MountState) (post : World → α → Prop) : Prop :=
  (∃ fault world', x.run state = .error fault { state with world := world' } ∧
    Grows state.world world') ∨
  ∃ a world', x.run state = .ok a { state with world := world' } ∧
    Grows state.world world' ∧ post world' a

namespace OffLock

variable {α β : Type} {state : MountState} {post : World → α → Prop}

theorem pure {a : α} (h : post state.world a) : OffLock (pure a) state post :=
  Or.inr ⟨a, state.world, rfl, Grows.refl _, h⟩

theorem throw (fault : Fault) : OffLock (throw fault) state post :=
  Or.inl ⟨fault, state.world, rfl, Grows.refl _⟩

/-- A program whose first part has only added to the store. -/
theorem after {x y : MountM α} {world : World} (hy : OffLock y { state with world := world } post)
    (hgrows : Grows state.world world)
    (hrun : x.run state = y.run { state with world := world }) : OffLock x state post := by
  unfold OffLock
  rw [hrun]
  rcases hy with ⟨fault, world', hrest, hgrows'⟩ | ⟨a, world', hrest, hgrows', hpost⟩
  · exact Or.inl ⟨fault, world', hrest, hgrows.trans hgrows'⟩
  · exact Or.inr ⟨a, world', hrest, hgrows.trans hgrows', hpost⟩

theorem bind {x : MountM β} {f : β → MountM α} {middle : World → β → Prop}
    (hx : OffLock x state middle) (hf : ∀ world b, Grows state.world world → middle world b →
      OffLock (f b) { state with world := world } post) : OffLock (x >>= f) state post := by
  rcases hx with ⟨fault, world, hrun, hgrows⟩ | ⟨b, world, hrun, hgrows, hmiddle⟩
  · exact Or.inl ⟨fault, world, EStateM.run_bind_of_error hrun, hgrows⟩
  · exact (hf world b hgrows hmiddle).after hgrows (EStateM.run_bind_of_ok hrun)

theorem getThe_bind {f : MountState → MountM α} (h : OffLock (f state) state post) :
    OffLock (getThe MountState >>= f) state post :=
  h

theorem ofExcept {x : Except Fault α} (h : ∀ a, x = .ok a → post state.world a) :
    OffLock (EStateM.ofExcept x) state post := by
  cases x with
  | error fault => exact throw fault
  | ok a => exact pure (h a rfl)

theorem readBlobs {x : Blobs → Except Fault α}
    (h : ∀ a, x state.world.blobs = .ok a → post state.world a) :
    OffLock (readBlobs x) state post :=
  getThe_bind (ofExcept h)

theorem ofExcept_bind {b : β} {f : β → MountM α} (h : OffLock (f b) state post) :
    OffLock (EStateM.ofExcept (.ok b) >>= f) state post :=
  h

theorem readBlobs_bind {x : Blobs → Except Fault β} {f : β → MountM α}
    (h : ∀ b, x state.world.blobs = .ok b → OffLock (f b) state post) :
    OffLock (JaxFs.readBlobs x >>= f) state post := by
  cases hread : x state.world.blobs with
  | error fault =>
      exact Or.inl ⟨fault, state.world,
        EStateM.run_bind_of_error (run_readBlobs_of_error hread), Grows.refl _⟩
  | ok b =>
      exact (h b hread).after (Grows.refl _) (EStateM.run_bind_of_ok (run_readBlobs_of_ok hread))

theorem onBlobs {x : BlobM α} (hx : EStateM.Preserves Grows x)
    (h : ∀ a world, x.run state.world = .ok a world → post world a) :
    OffLock (onBlobs x) state post := by
  cases hrun : x.run state.world with
  | error fault world =>
      exact Or.inl ⟨fault, world, run_onBlobs_of_error hrun, hx.of_error hrun⟩
  | ok a world =>
      exact Or.inr ⟨a, world, run_onBlobs_of_ok hrun, hx.of_ok hrun, h a world hrun⟩

variable [LawfulPrimitives]

theorem storeNode (node : Node) {rest : Link → Secret → MountM α}
    (h : ∀ link secret world, Grows state.world world →
      loadNode world.blobs (.dir link secret) = some node →
      OffLock (rest link secret) { state with world := world } post) :
    OffLock (do
      let secret ← JaxFs.onBlobs generateSecret
      let link ← JaxFs.onBlobs (putNodeInBlobs node secret)
      rest link secret) state post := by
  obtain ⟨link, secret, world, hgrows, hload, hrun⟩ := run_storeNode node state
  exact (h link secret world hgrows hload).after hgrows (hrun rest)

theorem storeFile (data : Bytes) {rest : Hash → Secret → MountM α}
    (h : ∀ hash secret world, Grows state.world world → FileAt world hash secret data →
      OffLock (rest hash secret) { state with world := world } post) :
    OffLock (do
      let secret ← JaxFs.onBlobs generateSecret
      let encrypted ← JaxFs.onBlobs (encryptData secret data)
      let hash ← JaxFs.onBlobs (put encrypted)
      rest hash secret) state post := by
  obtain ⟨hash, secret, world, blob, hgrows, hblob, hdata, hrun⟩ := run_storeFile data state
  exact (h hash secret world hgrows ⟨blob, hblob, hdata⟩).after hgrows (hrun rest)

theorem setNodeLink (entry : Node) (nodeLink : NodeLink) (names : List Name)
    {rest : NodeLink × List Hash → MountM α}
    (h : ∀ parents name root secret hashes world newEntry, names = parents ++ [name] →
      Grows state.world world → loadNode world.blobs (.dir root secret) = some newEntry →
      Updated world.blobs nodeLink parents name entry newEntry →
      OffLock (rest (.dir root secret, hashes)) { state with world := world } post) :
    OffLock (JaxFs.onBlobs (setNodeLinkAtPath entry nodeLink (absPath names)) >>= rest) state
      post := by
  rcases List.eq_nil_or_concat names with rfl | ⟨parents, name, rfl⟩
  · exact Or.inl ⟨.panic, state.world, rfl, Grows.refl _⟩
  rw [List.concat_eq_append] at *
  rcases setNodeLinkAtPath_spec entry nodeLink parents name state.world with
    ⟨-, error, hset, -⟩ | ⟨-, root, secret, hashes, world, newEntry, hset, hgrows, hroot,
      hupdated⟩
  · exact Or.inl ⟨_, _, EStateM.run_bind_of_error (run_onBlobs_of_error hset), Grows.refl _⟩
  · have hrest := h parents name root secret hashes world newEntry rfl hgrows hroot hupdated
    exact hrest.after hgrows (EStateM.run_bind_of_ok (run_onBlobs_of_ok hset))

theorem draftLink (entry : Node) (nodeLink : NodeLink) (names : List Name)
    (hashes : List Hash) :
    OffLock (draftLink entry nodeLink (absPath names) hashes) state
      (fun world draft => draft.snapshot = entry ∧ LinkDraft world nodeLink names draft) := by
  apply setNodeLink
  intro parents name root secret nodeHashes world newEntry hnames hgrows hroot hupdated
  have hdraft : LinkDraft world nodeLink names ⟨entry, hashes ++ nodeHashes, some newEntry⟩ :=
    ⟨parents, name, newEntry, hnames, rfl, hupdated⟩
  exact (pure ⟨rfl, hdraft⟩).after (Grows.refl _) (EStateM.run_bind_of_ok (run_reloadRoot hroot))

/-- The node is replaced in every later store, since the new nodes stay in it. -/
theorem draftParent (entry : Node) (parents : List Name) (parentNode : Node) :
    OffLock (draftParent entry (relPath parents) parentNode) state
      (fun world draft => draft.snapshot = entry ∧ ∃ newEntry, draft.newEntry = some newEntry ∧
        ∀ later, Grows world later →
          NodeReplaced later.blobs parents parentNode entry newEntry) := by
  apply storeNode
  intro link secret world hgrows hload
  rcases List.eq_nil_or_concat parents with rfl | ⟨names, name, rfl⟩
  · rw [if_pos relPath_nil]
    exact pure ⟨rfl, parentNode, rfl, fun later _ => NodeReplaced.root _ _ _⟩
  · rw [List.concat_eq_append, if_neg (by simp), rootDir_relPath]
    rcases @OffLock.draftLink _ { state with world := world } _ entry (.dir link secret)
      (names ++ [name]) [link.hash] with herror |
        ⟨draft, world', hrun, hgrows', hsnapshot, parents, last, newEntry, hnames, hnew, hupdated⟩
    · exact Or.inl herror
    · refine Or.inr ⟨draft, world', hrun, hgrows', hsnapshot, newEntry, hnew, ?_⟩
      intro later hlater
      obtain ⟨rfl, rfl⟩ := List.append_singleton_inj.mp hnames
      rw [hsnapshot] at hupdated
      exact NodeReplaced.of_updated ((hgrows'.trans hlater).loadNode hload)
        (hupdated.grows hlater)

theorem draftRemoval (entry : Node) (parents : List Name) (name : Name) :
    OffLock (draftRemoval entry (relPath (parents ++ [name])) (relPath parents)) state
      (fun world removal => removal.2.snapshot = entry ∧
        RemovalDraft world (parents ++ [name]) removal.2) := by
  unfold JaxFs.draftRemoval
  apply readBlobs_bind
  intro parentNode hread
  have hparent : walkNode state.world.blobs entry parents = some parentNode := by
    rw [getParentNode_relPath] at hread
    exact getNodeAtPathFrom_eq_ok_iff.mp hread
  rw [relPath_fileName_append_singleton]
  dsimp only
  cases hdel : parentNode.del name with
  | mk removed left =>
      cases removed with
      | none => exact throw _
      | some removedLink =>
          apply bind (draftParent entry parents left)
          intro world' draft hgrows' hdraft
          obtain ⟨hsnapshot, newEntry, hnew, hreplaced⟩ := hdraft
          apply pure
          refine ⟨hsnapshot, parents, name, parentNode, newEntry, rfl, hnew, ?_, ?_⟩
          · rw [hsnapshot]
            exact hgrows'.walkNode hparent
          · rw [hsnapshot, hdel]
            exact hreplaced

end OffLock

end

end JaxFs

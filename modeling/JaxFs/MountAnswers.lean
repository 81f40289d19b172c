import JaxFs.Mount
import JaxFs.MountRewrite
import JaxFs.ReferencePrimitives

/-!
# Reads of a mount and the growth of its store

A tree is complete when the store has the blob of every link in it.  The reads of
a complete tree do not depend on what else the store holds, so an operation that
only adds blobs and leaves the mount alone cannot be observed.
-/

namespace JaxFs

section

variable [P : Primitives]

/-- Every link of the tree has its blob. -/
def Complete (blobs : Blobs) (entry : Node) : Prop :=
  ∀ names link, findLink blobs entry names = some link →
    ∃ blob, blobs link.link.hash = some blob

section

variable {world world' : World} {node : Node}

theorem Complete.stored {blobs : Blobs} (h : Complete blobs node) {name : Name}
    {link : NodeLink} (hlink : node.getLink name = some link) :
    ∃ blob, blobs link.link.hash = some blob :=
  h [name] link hlink

theorem Complete.child {blobs : Blobs} (h : Complete blobs node) {name : Name}
    {link : NodeLink} {child : Node} (hlink : node.getLink name = some link)
    (hload : loadNode blobs link = some child) : Complete blobs child := by
  intro names found hfound
  cases names with
  | nil => simp [findLink] at hfound
  | cons first rest =>
      apply h (name :: first :: rest) found
      rw [findLink_cons (by simp), hlink, Option.bind_some, hload]
      exact hfound

theorem Complete.getNodeFromBlobs (h : Complete world.blobs node)
    (hgrows : Grows world world') {name : Name} {link : NodeLink}
    (hlink : node.getLink name = some link) :
    getNodeFromBlobs world'.blobs link = getNodeFromBlobs world.blobs link := by
  obtain ⟨blob, hblob⟩ := h.stored hlink
  exact hgrows.getNodeFromBlobs hblob

theorem Complete.getNodeAtPathFrom (h : Complete world.blobs node)
    (hgrows : Grows world world') (consumed path : Path) :
    getNodeAtPathFrom world'.blobs consumed node path =
      getNodeAtPathFrom world.blobs consumed node path := by
  induction path generalizing consumed node with
  | nil => rfl
  | cons part rest ih =>
      rw [JaxFs.getNodeAtPathFrom, JaxFs.getNodeAtPathFrom]
      cases hlink : node.getLink part.toName with
      | none => rfl
      | some link =>
          dsimp only
          rw [h.getNodeFromBlobs hgrows hlink]
          cases hload : JaxFs.getNodeFromBlobs world.blobs link with
          | error fault => rfl
          | ok next =>
              have hnext : loadNode world.blobs link = some next := by
                rw [loadNode, hload]
                rfl
              exact ih (h.child hlink hnext) _

/-- The nodes of a complete tree are complete. -/
theorem Complete.of_getNodeAtPathFrom {blobs : Blobs} {child : Node}
    (h : Complete blobs node) {consumed path : Path}
    (hpath : JaxFs.getNodeAtPathFrom blobs consumed node path = .ok child) :
    Complete blobs child := by
  induction path generalizing consumed node with
  | nil =>
      cases hpath
      exact h
  | cons part rest ih =>
      rw [JaxFs.getNodeAtPathFrom] at hpath
      cases hlink : node.getLink part.toName with
      | none => simp [hlink] at hpath
      | some link =>
          rw [hlink] at hpath
          cases hload : JaxFs.getNodeFromBlobs blobs link with
          | error fault => simp [hload] at hpath
          | ok next =>
              simp only [hload] at hpath
              have hnext : loadNode blobs link = some next := by
                rw [loadNode, hload]
                rfl
              exact ih (h.child hlink hnext) hpath

/-- The stores have the same blobs behind the links of the tree. -/
def SameBlobs (blobs blobs' : Blobs) (entry : Node) : Prop :=
  ∀ names link, findLink blobs entry names = some link →
    blobs' link.link.hash = blobs link.link.hash

theorem Complete.sameBlobs (h : Complete world.blobs node) (hgrows : Grows world world') :
    SameBlobs world.blobs world'.blobs node := by
  intro names link hlink
  obtain ⟨blob, hblob⟩ := h names link hlink
  rw [hblob]
  exact hgrows.blobs _ _ hblob

section

variable {blobs blobs' : Blobs}

theorem loadNode_congr {link : NodeLink} (h : blobs' link.link.hash = blobs link.link.hash) :
    loadNode blobs' link = loadNode blobs link := by
  unfold loadNode JaxFs.getNodeFromBlobs
  rw [h]

theorem SameBlobs.loadNode_eq (h : SameBlobs blobs blobs' node) {names : List Name}
    {link : NodeLink} (hlink : findLink blobs node names = some link) :
    loadNode blobs' link = loadNode blobs link :=
  loadNode_congr (h names link hlink)

theorem SameBlobs.child (h : SameBlobs blobs blobs' node) {name : Name} {link : NodeLink}
    {child : Node} (hlink : node.getLink name = some link)
    (hload : loadNode blobs link = some child) : SameBlobs blobs blobs' child := by
  intro names found hfound
  cases names with
  | nil => simp [findLink] at hfound
  | cons first rest =>
      apply h (name :: first :: rest) found
      rw [findLink_cons (by simp), hlink, Option.bind_some, hload]
      exact hfound

theorem SameBlobs.findLink_eq (h : SameBlobs blobs blobs' node) (names : List Name) :
    findLink blobs' node names = findLink blobs node names := by
  induction names generalizing node with
  | nil => rfl
  | cons first rest ih =>
      cases rest with
      | nil => rfl
      | cons second rest =>
          rw [findLink_cons (by simp), findLink_cons (by simp)]
          cases hlink : node.getLink first with
          | none => rfl
          | some link =>
              have hfirst : findLink blobs node [first] = some link := hlink
              rw [Option.bind_some, Option.bind_some, h.loadNode_eq hfirst]
              cases hload : loadNode blobs link with
              | none => rfl
              | some next => exact ih (h.child hlink hload)

theorem SameBlobs.isLoadableDir_iff (h : SameBlobs blobs blobs' node) {names : List Name}
    {link : NodeLink} (hlink : findLink blobs node names = some link) :
    IsLoadableDir blobs' link ↔ IsLoadableDir blobs link := by
  unfold IsLoadableDir
  rw [h.loadNode_eq hlink]

theorem SameBlobs.obstructed_iff (h : SameBlobs blobs blobs' node) {names : List Name} :
    Obstructed blobs' node names ↔ Obstructed blobs node names := by
  unfold Obstructed
  simp only [h.findLink_eq]
  constructor
  · intro ⟨ancestor, link, hpre, hlink, hbad⟩
    rw [h.isLoadableDir_iff hlink] at hbad
    exact ⟨ancestor, link, hpre, hlink, hbad⟩
  · intro ⟨ancestor, link, hpre, hlink, hbad⟩
    rw [← h.isLoadableDir_iff hlink] at hbad
    exact ⟨ancestor, link, hpre, hlink, hbad⟩

end

theorem Complete.findLink_eq (h : Complete world.blobs node)
    (hgrows : Grows world world') (names : List Name) :
    findLink world'.blobs node names = findLink world.blobs node names :=
  (h.sameBlobs hgrows).findLink_eq names

theorem Complete.isLoadableDir_iff (h : Complete world.blobs node)
    (hgrows : Grows world world') {names : List Name} {link : NodeLink}
    (hlink : findLink world.blobs node names = some link) :
    IsLoadableDir world'.blobs link ↔ IsLoadableDir world.blobs link :=
  (h.sameBlobs hgrows).isLoadableDir_iff hlink

theorem Complete.obstructed_iff (h : Complete world.blobs node)
    (hgrows : Grows world world') {names : List Name} :
    Obstructed world'.blobs node names ↔ Obstructed world.blobs node names :=
  (h.sameBlobs hgrows).obstructed_iff

end

/-! ## Writing a node from a mount -/

theorem getNodeFromBlobs_of_loadNode {blobs : Blobs} {link : NodeLink} {node : Node}
    (h : loadNode blobs link = some node) : getNodeFromBlobs blobs link = .ok node := by
  unfold loadNode at h
  exact Except.eq_ok_of_toOption h

theorem run_reloadRoot {state : MountState} {link : Link} {secret : Secret} {node : Node}
    (h : loadNode state.world.blobs (.dir link secret) = some node) :
    (reloadRoot (.dir link secret)).run state = .ok (some node) state := by
  unfold reloadRoot
  rw [EStateM.run_bind_of_ok
    (run_readBlobs_of_ok (getNodeFromBlobs_of_loadNode h))]
  rfl

/-- A node stored under a fresh secret, whatever follows. -/
theorem run_storeNode [LawfulPrimitives] (node : Node) (state : MountState) :
    ∃ link secret world', Grows state.world world' ∧
      loadNode world'.blobs (.dir link secret) = some node ∧
      ∀ {β : Type} (rest : Link → Secret → MountM β), (do
        let secret ← onBlobs generateSecret
        let link ← onBlobs (putNodeInBlobs node secret)
        rest link secret).run state =
          (rest link secret).run { state with world := world' } := by
  let middle : World := ⟨state.world.blobs, state.world.rng + 1, state.world.addressed⟩
  obtain ⟨link, world', hput, hgrows, hload⟩ :=
    putNodeInBlobs_spec node ⟨P.random state.world.rng secretSize⟩ middle
  refine ⟨link, _, world', ⟨hgrows.blobs, (Nat.le_succ _).trans hgrows.rng⟩, hload, ?_⟩
  intro β rest
  rw [EStateM.run_bind_of_ok (run_onBlobs_of_ok (run_generateSecret state.world)),
    EStateM.run_bind_of_ok (run_onBlobs_of_ok hput)]

/-- A file stored under a fresh secret, whatever follows. -/
theorem run_storeFile [LawfulPrimitives] (data : Bytes) (state : MountState) :
    ∃ hash secret world' blob, Grows state.world world' ∧ world'.blobs hash = some blob ∧
      secret.decrypt blob = some data ∧
      ∀ {β : Type} (rest : Hash → Secret → MountM β), (do
        let secret ← onBlobs generateSecret
        let encrypted ← onBlobs (encryptData secret data)
        let hash ← onBlobs (put encrypted)
        rest hash secret).run state =
          (rest hash secret).run { state with world := world' } := by
  let secret : Secret := ⟨P.random state.world.rng secretSize⟩
  let blob := secret.encrypt (P.random (state.world.rng + 1) nonceSize) data
  let middle : World := ⟨state.world.blobs, state.world.rng + 2, state.world.addressed⟩
  have hgrows := grows_store middle blob
  refine ⟨P.hash blob, secret, middle.store blob, blob,
    ⟨hgrows.blobs, (Nat.le_add_right _ 2).trans hgrows.rng⟩, by simp,
    secret.decrypt_encrypt (LawfulPrimitives.length_random _ _) data, ?_⟩
  intro β rest
  rfl

/-! ## The answers of a mount -/

namespace MountState

def get (state : MountState) (path : Path) : Except Fault NodeLink :=
  JaxFs.get state.world.blobs state.inner.entry path

def ls (state : MountState) (path : Path) : Except Fault (FinMap Path NodeLink) :=
  JaxFs.ls state.world.blobs state.inner.entry path

def cat (state : MountState) (path : Path) : Except Fault Bytes :=
  JaxFs.cat state.world.blobs state.inner.entry path

end MountState

/-- The two states cannot be told apart by reading. -/
structure SameAnswers (state state' : MountState) : Prop where
  get : ∀ path, state'.get path = state.get path
  ls : ∀ path, state'.ls path = state.ls path
  cat : ∀ path, state'.cat path = state.cat path

section

variable {world world' : World} {node : Node}

theorem Complete.getParentNode (h : Complete world.blobs node)
    (hgrows : Grows world world') (path : Path) :
    getParentNode world'.blobs node path = getParentNode world.blobs node path := by
  unfold JaxFs.getParentNode getNodeAtPath
  rw [h.getNodeAtPathFrom hgrows]

theorem Complete.of_getParentNode {blobs : Blobs} (h : Complete blobs node) {path : Path}
    {parent : Node} (hparent : JaxFs.getParentNode blobs node path = .ok parent) :
    Complete blobs parent := by
  unfold JaxFs.getParentNode at hparent
  split_ifs at hparent with hroot
  · cases hparent
    exact h
  · exact h.of_getNodeAtPathFrom hparent

theorem Complete.get_eq (h : Complete world.blobs node) (hgrows : Grows world world')
    (path : Path) : get world'.blobs node path = get world.blobs node path := by
  unfold get
  simp only [h.getParentNode hgrows]

theorem Complete.ls_eq (h : Complete world.blobs node) (hgrows : Grows world world')
    (path : Path) : ls world'.blobs node path = ls world.blobs node path := by
  unfold ls getNodeAtPath
  simp only [h.getNodeAtPathFrom hgrows]

theorem Complete.cat_eq (h : Complete world.blobs node) (hgrows : Grows world world')
    (path : Path) : cat world'.blobs node path = cat world.blobs node path := by
  unfold cat
  simp only [h.getParentNode hgrows, bind, Except.bind]
  cases cleanPath path with
  | error fault => rfl
  | ok path =>
      dsimp only
      cases parentAndName path with
      | error fault => rfl
      | ok split =>
          cases split with
          | none => rfl
          | some split =>
              obtain ⟨parentPath, name⟩ := split
              dsimp only
              cases hparent : JaxFs.getParentNode world.blobs node parentPath with
              | error fault => rfl
              | ok parent =>
                  dsimp only
                  cases hlink : parent.getLink name with
                  | none => rfl
                  | some link =>
                      cases link with
                      | dir link secret => rfl
                      | data link secret mime =>
                          obtain ⟨blob, hblob⟩ := (h.of_getParentNode hparent).stored hlink
                          have hstored : world.blobs link.hash = some blob := hblob
                          dsimp only
                          rw [hstored, hgrows.blobs _ _ hstored]

/-- A mount that is left alone answers as before. -/
theorem SameAnswers.of_grows {state : MountState}
    (h : Complete state.world.blobs state.inner.entry) {world' : World}
    (hgrows : Grows state.world world') :
    SameAnswers state { state with world := world' } :=
  ⟨h.get_eq hgrows, h.ls_eq hgrows, h.cat_eq hgrows⟩

end

end

namespace Reference

/-- A mount of the first version, with an empty tree. -/
def emptyMount : MountState where
  world := emptyWorld
  inner :=
    { link := manifestLink genesis
      manifest := genesis
      entry := Node.default
      pins := KeyedMap.empty
      height := 0
      opsLog := PathOpLog.new
      peerId := primitives.publicKey alice
      secretKey := alice }

end Reference

end JaxFs

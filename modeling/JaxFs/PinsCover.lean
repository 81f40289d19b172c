import JaxFs.TreeInvariant

/-!
# What the pins cover

A save stores the list of the hashes that a replica has to download.  The tree of a
mount is covered by its pins when every link in it is pinned; a rewrite of the tree
keeps this, since it pins the nodes that it makes and takes the rest from nodes of the
tree.  Only `rm` and `mv` may take their node from elsewhere: they read a file on the way
to it as a node when it decodes as one.  Along runs that keep to directories every
version is covered, and its pins are all that it takes to load and read it.
-/

namespace JaxFs

section

variable [P : Primitives]

/-! ## Trees and pins -/

/-- The link is in the tree below the node, and every link above it is a directory. -/
def InTree (blobs : Blobs) (entry : Node) (link : NodeLink) : Prop :=
  ∃ node name, Relation.ReflTransGen (ChildDir blobs) entry node ∧
    node.getLink name = some link

/-- Every link of the tree is pinned and its blob stored, and its directories can be
read. -/
structure Covered (blobs : Blobs) (pins : Pins) (entry : Node) : Prop where
  pinned : ∀ link, InTree blobs entry link → link.link.hash ∈ pins
  stored : ∀ link, InTree blobs entry link → ∃ blob, blobs link.link.hash = some blob
  loads : ∀ link, InTree blobs entry link → link.isDir = true →
    ∃ child, loadNode blobs link = some child

/-- The link is pinned, and so is the tree behind it. -/
structure CoveredLink (blobs : Blobs) (pins : Pins) (link : NodeLink) : Prop where
  pinned : link.link.hash ∈ pins
  stored : ∃ blob, blobs link.link.hash = some blob
  below : link.isDir = true → ∃ child, loadNode blobs link = some child ∧
    Covered blobs pins child

section

variable {blobs blobs' : Blobs} {pins pins' : Pins} {node child : Node} {name : Name}
  {link : NodeLink}

omit P in
/-- What a covered tree says of each of its links. -/
def Pinned : EntryProp := fun blobs pins _ link =>
  link.link.hash ∈ pins ∧ ∃ blob, blobs link.link.hash = some blob

theorem covered_iff : Covered blobs pins node ↔ TreeOf Pinned blobs pins node := by
  constructor
  · intro h
    constructor
    · intro name link ⟨inner, hreach, hlink⟩
      have hin : InTree blobs node link := ⟨inner, name, hreach, hlink⟩
      exact ⟨h.pinned link hin, h.stored link hin⟩
    · intro name link ⟨inner, hreach, hlink⟩
      exact h.loads link ⟨inner, name, hreach, hlink⟩
  · intro h
    constructor
    · intro link ⟨inner, name, hreach, hlink⟩
      exact (h.entries name link ⟨inner, hreach, hlink⟩).1
    · intro link ⟨inner, name, hreach, hlink⟩
      exact (h.entries name link ⟨inner, hreach, hlink⟩).2
    · intro link ⟨inner, name, hreach, hlink⟩
      exact h.loads name link ⟨inner, hreach, hlink⟩

theorem pinnedRules : EntryRules Pinned (fun _ => True) where
  grows := by
    intro world world' pins pins' name link ⟨hpinned, blob, hblob⟩ hgrows hpins
    exact ⟨hpins _ hpinned, blob, hgrows.blobs _ _ hblob⟩
  file := fun _ hpinned hstored => ⟨hpinned, hstored⟩
  dir := by
    intro blobs pins name link secret _ hpinned ⟨child, hload⟩
    exact ⟨hpinned, stored_of_loadNode hload⟩
  move := fun _ h => h

theorem Covered.of_childDir (h : Covered blobs pins node) (hlink : node.getLink name = some link)
    (hdir : link.isDir = true) (hload : loadNode blobs link = some child) :
    Covered blobs pins child :=
  covered_iff.mpr ((covered_iff.mp h).of_childDir hlink hdir hload)

theorem Covered.coveredLink (h : Covered blobs pins node) (hlink : node.getLink name = some link) :
    CoveredLink blobs pins link := by
  obtain ⟨⟨hpinned, hstored⟩, hbelow⟩ := (covered_iff.mp h).linkOf hlink
  refine ⟨hpinned, hstored, ?_⟩
  intro hdir
  obtain ⟨child, hload, htree⟩ := hbelow hdir
  exact ⟨child, hload, covered_iff.mpr htree⟩

theorem Covered.of_reach (h : Covered blobs pins node)
    (hreach : Relation.ReflTransGen (ChildDir blobs) node child) : Covered blobs pins child :=
  covered_iff.mpr ((covered_iff.mp h).of_reach hreach)

theorem covered_default (blobs : Blobs) (pins : Pins) : Covered blobs pins Node.default :=
  covered_iff.mpr (treeOf_default _ _ _)

theorem Covered.mono (h : Covered blobs pins node) (hpins : ∀ hash ∈ pins, hash ∈ pins') :
    Covered blobs pins' node :=
  ⟨fun link hlink => hpins _ (h.pinned link hlink), h.stored, h.loads⟩

/-! ## Other stores -/

theorem loadNode_of_keepsBlob (hkeeps : KeepsBlob blobs blobs' link.link.hash)
    (hload : loadNode blobs link = some child) : loadNode blobs' link = some child := by
  have hread := hkeeps.getNodeFromBlobs (getNodeFromBlobs_of_loadNode hload)
  rw [loadNode, hread]
  rfl

/-- A store with the pinned blobs has the nodes of the tree, and no others. -/
theorem Covered.reach_iff (h : Covered blobs pins node)
    (hkeeps : ∀ hash ∈ pins, KeepsBlob blobs blobs' hash) :
    Relation.ReflTransGen (ChildDir blobs') node child ↔
      Relation.ReflTransGen (ChildDir blobs) node child := by
  constructor
  · intro hreach
    induction hreach with
    | refl => exact Relation.ReflTransGen.refl
    | tail _ hstep ih =>
        obtain ⟨name, link, hlink, hdir, hload'⟩ := hstep
        have hcovered := (h.of_reach ih).coveredLink hlink
        obtain ⟨loaded, hload, -⟩ := hcovered.below hdir
        rw [loadNode_of_keepsBlob (hkeeps _ hcovered.pinned) hload] at hload'
        cases hload'
        exact ih.tail ⟨name, link, hlink, hdir, hload⟩
  · intro hreach
    induction hreach with
    | refl => exact Relation.ReflTransGen.refl
    | tail hbefore hstep ih =>
        obtain ⟨name, link, hlink, hdir, hload⟩ := hstep
        have hpinned := ((h.of_reach hbefore).coveredLink hlink).pinned
        exact ih.tail ⟨name, link, hlink, hdir, loadNode_of_keepsBlob (hkeeps _ hpinned) hload⟩

theorem Covered.of_keepsBlob (h : Covered blobs pins node)
    (hkeeps : ∀ hash ∈ pins, KeepsBlob blobs blobs' hash) : Covered blobs' pins node := by
  have hin : ∀ link, InTree blobs' node link → InTree blobs node link := by
    intro link ⟨inner, name, hreach, hlink⟩
    exact ⟨inner, name, (h.reach_iff hkeeps).mp hreach, hlink⟩
  refine ⟨fun link hlink => h.pinned link (hin link hlink), ?_, ?_⟩
  · intro link hlink
    obtain ⟨blob, hblob⟩ := h.stored link (hin link hlink)
    exact ⟨blob, hkeeps _ (h.pinned link (hin link hlink)) blob hblob⟩
  · intro link hlink hdir
    obtain ⟨child, hload⟩ := h.loads link (hin link hlink) hdir
    exact ⟨child, loadNode_of_keepsBlob (hkeeps _ (h.pinned link (hin link hlink))) hload⟩

theorem Covered.grows {world world' : World} (h : Covered world.blobs pins node)
    (hgrows : Grows world world') : Covered world'.blobs pins node :=
  h.of_keepsBlob (fun _ _ => hgrows.keepsBlob _)

end

/-! ## Mounts -/

def MountCovered (state : MountState) : Prop :=
  Covered state.world.blobs state.inner.pins state.inner.entry

section

variable {state : MountState} {α β : Type}

theorem mountCovered_iff : MountCovered state ↔ MountOf Pinned state := covered_iff

theorem MountCovered.grows (h : MountCovered state) {world' : World}
    (hgrows : Grows state.world world') : MountCovered { state with world := world' } :=
  Covered.grows h hgrows

theorem Covered.of_getParentNode {blobs : Blobs} {pins : Pins} {node parentNode : Node}
    (h : Covered blobs pins node) {path : Path} (hdirs : ThroughDirs blobs node path)
    (hread : getParentNode blobs node path = .ok parentNode) :
    Covered blobs pins parentNode :=
  covered_iff.mpr ((covered_iff.mp h).of_getParentNode hdirs hread)

variable [LawfulPrimitives]

theorem mountCovered_add (h : MountCovered state) (path : Path) (data : Bytes) :
    MountCovered ((add path data).run state).state :=
  mountCovered_iff.mpr
    (mountOf_add pinnedRules (mountCovered_iff.mp h) (namedBy_true path) data)

theorem mountCovered_mkdir (h : MountCovered state) (path : Path) :
    MountCovered ((mkdir path).run state).state :=
  mountCovered_iff.mpr
    (mountOf_mkdir pinnedRules.toRewriteRules (mountCovered_iff.mp h) (namedBy_true path))

theorem mountCovered_rm (h : MountCovered state) {path : Path}
    (hdirs : ParentThroughDirs state.world.blobs state.inner.entry path) :
    MountCovered ((rm path).run state).state :=
  mountCovered_iff.mpr
    (mountOf_rm pinnedRules.toRewriteRules (mountCovered_iff.mp h) (namedBy_true path) hdirs)

theorem mountCovered_mv (h : MountCovered state) {source target : Path}
    (hdirs : ParentThroughDirs state.world.blobs state.inner.entry source) :
    MountCovered ((mv source target).run state).state :=
  mountCovered_iff.mpr (mountOf_mv pinnedRules.toRewriteRules (mountCovered_iff.mp h)
    (namedBy_true source) (namedBy_true target) hdirs)

/-! ## Merges and principals -/

theorem mountCovered_applyAll (h : MountCovered state)
    (resolved : List (Path × PathOperation)) :
    MountCovered ((applyAll resolved).run state).state :=
  mountCovered_iff.mpr
    (mountOf_applyAll pinnedRules.toRewriteRules (mountCovered_iff.mp h) resolved)

omit [LawfulPrimitives] in
/-- A new owner gets a share, and the tree stays. -/
theorem mountCovered_addOwner (h : MountCovered state) (hfiled : state.inner.manifest.Filed)
    (peer : PublicKey) : MountCovered ((addOwner peer).run state).state ∧
      ((addOwner peer).run state).state.inner.manifest.Filed ∧
      ((addOwner peer).run state).state.inner.link = state.inner.link := by
  rcases addOwner_cases peer state with ⟨fault, world', hgrows, hrun⟩ |
    ⟨share, world', -, hgrows, hrun⟩
  · rw [hrun]
    exact ⟨h.grows hgrows, hfiled, rfl⟩
  · rw [hrun]
    exact ⟨h.grows hgrows, hfiled.addShare _, rfl⟩

end

/-! ## Versions -/

/-- The pins of the version contain the hashes of its root, of all nodes and files below
it, of the previous manifest and of the operation log. -/
structure PinsCover (blobs : Blobs) (version : Version) : Prop where
  entry : version.manifest.entry.hash ∈ version.pins
  tree : Covered blobs version.pins version.entry
  previous : ∀ link, version.manifest.previous = some link → link.hash ∈ version.pins
  opsLog : ∀ link, version.manifest.opsLog = some link → link.hash ∈ version.pins

/-- The other store has the manifest, the list of pins and the pinned blobs. -/
structure Downloaded (blobs blobs' : Blobs) (version : Version) : Prop where
  manifest : KeepsBlob blobs blobs' version.link.hash
  pinsList : KeepsBlob blobs blobs' version.manifest.pins.hash
  pinned : ∀ hash ∈ version.pins, KeepsBlob blobs blobs' hash

/-- The version loads from the other store as it does from the first, and every read of
its tree gives the same. -/
structure ReadsWhole (blobs blobs' : Blobs) (version : Version) : Prop where
  load : ∀ secretKey, load blobs' version.link secretKey = load blobs version.link secretKey
  ls : ∀ path, (∀ cleaned, cleanPath path = .ok cleaned →
      ThroughDirs blobs version.entry cleaned) →
    ls blobs' version.entry path = ls blobs version.entry path
  get : ∀ path, ParentThroughDirs blobs version.entry path →
    get blobs' version.entry path = get blobs version.entry path
  cat : ∀ path, ParentThroughDirs blobs version.entry path →
    cat blobs' version.entry path = cat blobs version.entry path

section

variable {blobs blobs' : Blobs} {pins : Pins} {node : Node}

theorem PinsCover.of_keepsBlob {version : Version} (h : PinsCover blobs version)
    (hkeeps : ∀ hash ∈ version.pins, KeepsBlob blobs blobs' hash) :
    PinsCover blobs' version :=
  ⟨h.entry, h.tree.of_keepsBlob hkeeps, h.previous, h.opsLog⟩

theorem PinsCover.stored {version : Version} (h : PinsCover blobs version)
    (hstored : version.Stored blobs) (hdown : Downloaded blobs blobs' version) :
    version.Stored blobs' :=
  hstored.of_keepsBlob hdown.manifest (hdown.pinned _ h.entry) hdown.pinsList
    (fun link hlink => hdown.pinned _ (h.opsLog link hlink))

theorem Covered.blob_eq (h : Covered blobs pins node)
    (hkeeps : ∀ hash ∈ pins, KeepsBlob blobs blobs' hash) {name : Name} {link : NodeLink}
    (hlink : node.getLink name = some link) :
    blobs' link.link.hash = blobs link.link.hash := by
  have hcovered := h.coveredLink hlink
  obtain ⟨blob, hblob⟩ := hcovered.stored
  rw [hblob]
  exact hkeeps _ hcovered.pinned blob hblob

theorem Covered.getNodeAtPathFrom_eq (h : Covered blobs pins node)
    (hkeeps : ∀ hash ∈ pins, KeepsBlob blobs blobs' hash) {consumed path : Path}
    (hdirs : ThroughDirs blobs node path) :
    getNodeAtPathFrom blobs' consumed node path = getNodeAtPathFrom blobs consumed node path := by
  induction path generalizing consumed node with
  | nil => rfl
  | cons part rest ih =>
      rw [getNodeAtPathFrom, getNodeAtPathFrom]
      cases hlink : node.getLink part.toName with
      | none => rfl
      | some link =>
          have hread : getNodeFromBlobs blobs' link = getNodeFromBlobs blobs link := by
            unfold getNodeFromBlobs
            rw [h.blob_eq hkeeps hlink]
          dsimp only
          rw [hread]
          cases hload : getNodeFromBlobs blobs link with
          | error fault => rfl
          | ok child =>
              have hchild : loadNode blobs link = some child := by
                simp [loadNode, hload, Except.toOption]
              obtain ⟨hdir, hrest⟩ := hdirs link child hlink hchild
              exact ih (h.of_childDir hlink hdir hchild) hrest

theorem Covered.getParentNode_eq (h : Covered blobs pins node)
    (hkeeps : ∀ hash ∈ pins, KeepsBlob blobs blobs' hash) {path : Path}
    (hdirs : ThroughDirs blobs node path) :
    getParentNode blobs' node path = getParentNode blobs node path := by
  unfold getParentNode
  split_ifs
  · rfl
  · exact h.getNodeAtPathFrom_eq hkeeps hdirs

theorem Covered.ls_eq (h : Covered blobs pins node)
    (hkeeps : ∀ hash ∈ pins, KeepsBlob blobs blobs' hash) {path : Path}
    (hdirs : ∀ cleaned, cleanPath path = .ok cleaned → ThroughDirs blobs node cleaned) :
    ls blobs' node path = ls blobs node path := by
  unfold ls
  cases hclean : cleanPath path with
  | error fault => rfl
  | ok cleaned =>
      have hread : getNodeAtPath blobs' node cleaned = getNodeAtPath blobs node cleaned :=
        h.getNodeAtPathFrom_eq hkeeps (hdirs cleaned hclean)
      simp only [bind, Except.bind, hread]

/-- `get` and `cat` read the parent of the path and go on from there. -/
theorem ThroughDirs.of_parentAndName {path cleaned parentPath : Path} {fileName : Name}
    (hdirs : ParentThroughDirs blobs node path) (hclean : cleanPath path = .ok cleaned)
    (hsplit : parentAndName cleaned = .ok (some (parentPath, fileName))) :
    ThroughDirs blobs node parentPath := by
  apply hdirs cleaned parentPath hclean
  rw [parentAndName_eq_some_iff.mp hsplit]
  simp [Path.parent]

theorem Covered.get_eq (h : Covered blobs pins node)
    (hkeeps : ∀ hash ∈ pins, KeepsBlob blobs blobs' hash) {path : Path}
    (hdirs : ParentThroughDirs blobs node path) :
    get blobs' node path = get blobs node path := by
  unfold get
  cases hclean : cleanPath path with
  | error fault => rfl
  | ok cleaned =>
      simp only [bind, Except.bind]
      cases hsplit : parentAndName cleaned with
      | error fault => rfl
      | ok split =>
          cases split with
          | none => rfl
          | some split =>
              have hparent := ThroughDirs.of_parentAndName hdirs hclean hsplit
              dsimp only
              rw [h.getParentNode_eq hkeeps hparent]

theorem Covered.cat_eq (h : Covered blobs pins node)
    (hkeeps : ∀ hash ∈ pins, KeepsBlob blobs blobs' hash) {path : Path}
    (hdirs : ParentThroughDirs blobs node path) :
    cat blobs' node path = cat blobs node path := by
  unfold cat
  cases hclean : cleanPath path with
  | error fault => rfl
  | ok cleaned =>
      simp only [bind, Except.bind]
      cases hsplit : parentAndName cleaned with
      | error fault => rfl
      | ok split =>
          cases split with
          | none => rfl
          | some split =>
              have hparent := ThroughDirs.of_parentAndName hdirs hclean hsplit
              dsimp only
              rw [h.getParentNode_eq hkeeps hparent]
              cases hread : getParentNode blobs node split.1 with
              | error fault => rfl
              | ok parentNode =>
                  have hnode := h.of_getParentNode hparent hread
                  dsimp only
                  cases hlink : parentNode.getLink split.2 with
                  | none => rfl
                  | some link =>
                      have hblob := hnode.blob_eq hkeeps hlink
                      cases link with
                      | dir link secret => rfl
                      | data link secret mime =>
                          dsimp only at hblob ⊢
                          rw [show blobs' link.hash = blobs link.hash from hblob]

/-- The pinned blobs are all that it takes. -/
theorem PinsCover.readsWhole {version : Version} (h : PinsCover blobs version)
    (hstored : version.Stored blobs) (hdown : Downloaded blobs blobs' version) :
    ReadsWhole blobs blobs' version where
  load := by
    intro secretKey
    rw [(h.stored hstored hdown).load_eq, hstored.load_eq]
  ls := fun _ hdirs => h.tree.ls_eq hdown.pinned hdirs
  get := fun _ hdirs => h.tree.get_eq hdown.pinned hdirs
  cat := fun _ hdirs => h.tree.cat_eq hdown.pinned hdirs

variable [LawfulPrimitives]

omit [LawfulPrimitives] in
/-- What a save stores is covered when the mount was. -/
theorem PinsCover.of_save {version : Version} {inner : MountInner} {publish : Bool}
    {world world' : World} (hsaves : version.Saves inner publish)
    (htree : Covered world.blobs inner.pins inner.entry) (hgrows : Grows world world') :
    PinsCover world'.blobs version := by
  have hpins : ∀ hash, hash ∈ inner.pins ∨ hash = version.manifest.entry.hash ∨
      hash = inner.link.hash ∨ hash ∈ (version.manifest.opsLog.map Link.hash).toList →
      hash ∈ version.pins := by
    intro hash hhash
    rw [hsaves.pins, Pins.mem_extend, Pins.mem_extend]
    simpa [or_assoc] using hhash
  constructor
  · exact hpins _ (Or.inr (Or.inl rfl))
  · rw [hsaves.entry]
    exact (htree.grows hgrows).mono (fun hash hhash => hpins hash (Or.inl hhash))
  · intro link hlink
    rw [hsaves.previous] at hlink
    cases hlink
    exact hpins _ (Or.inr (Or.inr (Or.inl rfl)))
  · intro link hlink
    apply hpins
    simp [hlink]

/-! ## Runs -/

/-- The mount is covered, and its shares are filed under their keys. -/
structure CoveredMount (state : MountState) : Prop where
  tree : MountCovered state
  filed : state.inner.manifest.Filed

/-- A version that its pins cover is stored under the link. -/
def StoredCovered (world : World) (link : Link) : Prop :=
  ∃ version : Version, version.link = link ∧ version.Stored world.blobs ∧
    PinsCover world.blobs version ∧ version.manifest.Filed

/-- `rm` and `mv` take their node from a directory of the tree. -/
def KeepsToDirs (state : MountState) : MountAction → Prop
  | .rm path => ParentThroughDirs state.world.blobs state.inner.entry path
  | .mv source _ => ParentThroughDirs state.world.blobs state.inner.entry source
  | _ => True

omit [LawfulPrimitives] in
theorem StoredCovered.grows {world world' : World} {link : Link} (h : StoredCovered world link)
    (hgrows : Grows world world') : StoredCovered world' link := by
  obtain ⟨version, hversion, hstored, hcover, hfiled⟩ := h
  exact ⟨version, hversion, hstored.grows hgrows,
    hcover.of_keepsBlob (fun _ _ => hgrows.keepsBlob _), hfiled⟩

omit [LawfulPrimitives] in
theorem filed_of_atVersion {state state' : MountState} (hat : AtVersion state state')
    (h : state.inner.manifest.Filed) : state'.inner.manifest.Filed := by
  obtain ⟨opsLog, hedited⟩ := hat
  rwa [hedited.manifest]

omit [LawfulPrimitives] in
theorem storedCovered_of_atVersion {state state' : MountState} (hat : AtVersion state state')
    (h : StoredCovered state.world state.inner.link) :
    StoredCovered state'.world state'.inner.link := by
  obtain ⟨opsLog, hedited⟩ := hat
  rw [hedited.link]
  exact h.grows hedited.grows

theorem covered_of_save {publish : Bool} {state state' : MountState} (h : CoveredMount state)
    {result : Link × Link × ℕ} (hrun : (save publish).run state = .ok result state') :
    CoveredMount state' ∧ StoredCovered state'.world state'.inner.link := by
  have hgrows : Grows state.world state'.world := (mountGrows_save publish).of_ok hrun
  obtain ⟨version, hstored, hsaves, -, hinner⟩ := stored_of_save h.filed hrun
  have htree : MountCovered state' := by
    unfold MountCovered
    rw [hinner]
    exact h.tree.grows hgrows
  have hcover := PinsCover.of_save hsaves h.tree hgrows
  rw [hinner]
  refine ⟨⟨htree, ?_⟩, version, rfl, hstored, hcover, hsaves.filed⟩
  rw [hinner]
  exact hsaves.filed

theorem coveredInvariant : SystemInvariant KeepsToDirs CoveredMount StoredCovered where
  mount_grows := fun hgrows h => ⟨h.tree.grows hgrows, h.filed⟩
  link_grows := fun hgrows h => h.grows hgrows
  init := by
    intro id name owner world inner world' hrun
    obtain ⟨version, hstored, rfl, hentry, -, hops, hprevious, hpins, hfiled, -⟩ :=
      stored_of_init hrun
    have htree : Covered world'.blobs version.pins version.entry := by
      rw [hentry]
      exact covered_default _ _
    refine ⟨⟨htree, hfiled⟩, version, rfl, hstored, ?_, hfiled⟩
    constructor
    · rw [hpins, Pins.mem_extend]
      exact Or.inr List.mem_cons_self
    · exact htree
    · simp [hprevious]
    · simp [hops]
  load := by
    rintro world link secretKey inner ⟨version, rfl, hstored, hcover, hfiled⟩ hload
    rw [hstored.eq_mount_of_load hload]
    exact ⟨hcover.tree, hfiled⟩
  operate := by
    intro state action hallowed h hlink
    have hedit : ∀ {α : Type} {x : MountM α}, Records x →
        MountCovered (x.run state).state →
        CoveredMount (x.run state).state ∧
          StoredCovered (x.run state).state.world (x.run state).state.inner.link := by
      intro α x hrecords htree
      have hat := hrecords.atVersion state
      exact ⟨⟨htree, filed_of_atVersion hat h.filed⟩, storedCovered_of_atVersion hat hlink⟩
    cases action with
    | add path data => exact hedit (records_add path data) (mountCovered_add h.tree path data)
    | rm path => exact hedit (records_rm path) (mountCovered_rm h.tree hallowed)
    | mkdir path => exact hedit (records_mkdir path) (mountCovered_mkdir h.tree path)
    | mv source target =>
        exact hedit (records_mv source target) (mountCovered_mv h.tree hallowed)
    | addOwner peer =>
        obtain ⟨htree, hfiled, hat⟩ := mountCovered_addOwner h.tree h.filed peer
        have hgrows : Grows state.world ((addOwner peer).run state).state.world :=
          mountGrows_addOwner peer state
        refine ⟨⟨htree, hfiled⟩, ?_⟩
        change StoredCovered _ ((addOwner peer).run state).state.inner.link
        rw [hat]
        exact hlink.grows hgrows
    | addMirror peer => exact ⟨⟨h.tree, h.filed.addShare _⟩, hlink⟩
    | save publish =>
        rcases saveAction_cases publish state with ⟨fault, world', hgrows, hrun⟩ |
          ⟨result, state', hsave, hrun⟩
        · rw [hrun]
          exact ⟨⟨h.tree.grows hgrows, h.filed⟩, hlink.grows hgrows⟩
        · rw [hrun]
          exact covered_of_save h hsave
  mergeFrom := by
    intro state fuel incoming resolver h hlink
    have happly : ∀ resolved, CoveredMount ((applyAll resolved).run state).state ∧
        StoredCovered ((applyAll resolved).run state).state.world
          ((applyAll resolved).run state).state.inner.link := by
      intro resolved
      have hat : AtVersion state ((applyAll resolved).run state).state :=
        atVersion_applyAll resolved state
      exact ⟨⟨mountCovered_applyAll h.tree resolved, filed_of_atVersion hat h.filed⟩,
        storedCovered_of_atVersion hat hlink⟩
    rcases @mergeFrom_keeps _ _ (fun state' => CoveredMount state' ∧
        StoredCovered state'.world state'.inner.link) state ⟨h, hlink⟩ happly
        (fun _ _ ⟨hmount, hversion⟩ => ⟨⟨hmount.tree, hmount.filed⟩, hversion⟩)
        (fun _ _ ⟨hmount, hversion⟩ hgrows =>
          ⟨⟨hmount.tree.grows hgrows, hmount.filed⟩, hversion.grows hgrows⟩)
        fuel incoming resolver with hkept | ⟨middle, result, ⟨hmount, -⟩, hsave⟩
    · exact hkept
    · exact covered_of_save hmount hsave

theorem pins_cover (world : World) (actions : List SystemAction)
    (hdirs : AlongRun MountSystem.step (fun system => system.Allows KeepsToDirs)
      (MountSystem.start world) actions) :
    ∀ link ∈ ((MountSystem.start world).run actions).links, ∃ version : Version,
      version.link = link ∧
      version.Stored ((MountSystem.start world).run actions).world.blobs ∧
      PinsCover ((MountSystem.start world).run actions).world.blobs version ∧
      ∀ blobs', Downloaded ((MountSystem.start world).run actions).world.blobs blobs' version →
        ReadsWhole ((MountSystem.start world).run actions).world.blobs blobs' version := by
  intro link hlink
  have hholds := MountSystem.holds_run coveredInvariant world hdirs
  obtain ⟨version, hversion, hstored, hcover, -⟩ := hholds.links link hlink
  exact ⟨version, hversion, hstored, hcover, fun _ hdown => hcover.readsWhole hstored hdown⟩

end

end

namespace Reference

theorem parentThroughDirs_singleton (blobs : Blobs) (entry : Node) (name : Name) :
    ParentThroughDirs blobs entry (absPath [name]) := by
  intro cleaned parentPath hclean hparent
  cases hclean
  cases hparent
  trivial

/-- A directory with a file, moved and then removed. -/
def movedDirectory : List SystemAction :=
  [.init ⟨7⟩ "docs".toList alice, .operate 0 (.mkdir (absPath ["a".toList])),
    .operate 0 (.add (absPath ["a".toList, "f".toList]) [1]),
    .operate 0 (.mv (absPath ["a".toList]) (absPath ["b".toList])),
    .operate 0 (.save true), .operate 0 (.rm (absPath ["b".toList]))]

theorem movedDirectory_pins_cover :
    ∃ link, ((MountSystem.start emptyWorld).run movedDirectory).links[4]? = some link ∧
      ∃ version : Version, version.link = link ∧
        PinsCover ((MountSystem.start emptyWorld).run movedDirectory).world.blobs version := by
  have hdirs : AlongRun MountSystem.step (fun system => system.Allows KeepsToDirs)
      (MountSystem.start emptyWorld) movedDirectory :=
    ⟨trivial, fun _ _ => trivial, fun _ _ => trivial,
      fun _ _ => parentThroughDirs_singleton _ _ _, fun _ _ => trivial,
      fun _ _ => parentThroughDirs_singleton _ _ _, trivial⟩
  have hlength : ((MountSystem.start emptyWorld).run movedDirectory).links.length = 6 := by
    decide +kernel
  have hcovers := pins_cover emptyWorld movedDirectory hdirs
  generalize (MountSystem.start emptyWorld).run movedDirectory = system at *
  have hlink : system.links[4]? = some system.links[4] := List.getElem?_eq_getElem _
  obtain ⟨version, hversion, -, hcover, -⟩ := hcovers _ (List.mem_of_getElem? hlink)
  exact ⟨system.links[4], hlink, version, hversion, hcover⟩

/-- A node with two files that are in no store. -/
def strayNode : Node :=
  (Node.default.insert "x".toList (.data ⟨ldRawCodec, ⟨List.replicate 32 8⟩⟩ Secret.default
    none)).insert "y".toList (.data ⟨ldRawCodec, ⟨List.replicate 32 9⟩⟩ Secret.default none)

/-- The node is added as a file, and an entry of it removed. -/
def removedInFile : List SystemAction :=
  [.init ⟨7⟩ "docs".toList alice,
    .operate 0 (.add (absPath ["f".toList]) (nodeCode.encode strayNode)),
    .operate 0 (.rm (absPath ["f".toList, "x".toList])), .operate 0 (.save false)]

set_option maxRecDepth 100000 in
/-- The file has become a directory with a file that is not pinned. -/
theorem removedInFile_not_covered :
    ∃ link ∈ ((MountSystem.start emptyWorld).run removedInFile).links,
      ∀ version : Version, version.link = link →
        version.Stored ((MountSystem.start emptyWorld).run removedInFile).world.blobs →
        ¬ PinsCover ((MountSystem.start emptyWorld).run removedInFile).world.blobs version := by
  have hfacts : ((MountSystem.start emptyWorld).run removedInFile).links[3]?.bind (fun link =>
      let blobs := ((MountSystem.start emptyWorld).run removedInFile).world.blobs
      (load blobs link alice).toOption.bind (fun loaded =>
        (loaded.entry.getLink "f".toList).bind (fun dirLink =>
          (loadNode blobs dirLink).bind (fun child =>
            (child.getLink "y".toList).map (fun stray =>
              (dirLink.isDir, decide (stray.link.hash ∈ loaded.pins))))))) =
                some (true, false) := by
    decide +kernel
  generalize (MountSystem.start emptyWorld).run removedInFile = system at *
  obtain ⟨link, hlink, hfacts⟩ := Option.bind_eq_some_iff.mp hfacts
  obtain ⟨loaded, hload, hfacts⟩ := Option.bind_eq_some_iff.mp hfacts
  obtain ⟨dirLink, hentry, hfacts⟩ := Option.bind_eq_some_iff.mp hfacts
  obtain ⟨child, hchild, hfacts⟩ := Option.bind_eq_some_iff.mp hfacts
  obtain ⟨stray, hstray, hpair⟩ := Option.map_eq_some_iff.mp hfacts
  obtain ⟨hdir, hpinned⟩ := Prod.mk.inj hpair
  refine ⟨link, List.mem_of_getElem? hlink, ?_⟩
  rintro version rfl hstored hcover
  obtain rfl := hstored.eq_mount_of_load (Except.eq_ok_of_toOption hload)
  have hbelow := hcover.tree.of_childDir hentry hdir hchild
  exact of_decide_eq_false hpinned (hbelow.coveredLink hstray).pinned

end Reference

end JaxFs

import JaxFs.MountSystem
import Mathlib.Logic.Relation

/-!
# Invariants of the entries of a tree

A condition on the single entries of a tree that the operations of a mount keep.  A
rewrite makes directories, puts one given link under a name of the path, and takes the rest
from nodes of the tree; so the rules of the condition speak of new files, new directories
and of links under another name.  Only `rm` and `mv` may take a node from elsewhere: they
read a file on the way to it as a node when it decodes as one, and so they keep the
condition only where they keep to directories.
-/

namespace JaxFs

section

variable [P : Primitives]

/-! ## Trees and entries -/

/-- The node is in a directory of the other. -/
def ChildDir (blobs : Blobs) (node child : Node) : Prop :=
  ∃ name link, node.getLink name = some link ∧ link.isDir = true ∧
    loadNode blobs link = some child

/-- The link is under the name in the tree, and every link above it is a directory. -/
def HasEntry (blobs : Blobs) (entry : Node) (name : Name) (link : NodeLink) : Prop :=
  ∃ node, Relation.ReflTransGen (ChildDir blobs) entry node ∧ node.getLink name = some link

/-- A condition on an entry, in a store and with the pins of a mount. -/
abbrev EntryProp := Blobs → Pins → Name → NodeLink → Prop

/-- Every entry of the tree is good, and its directories can be read. -/
structure TreeOf (good : EntryProp) (blobs : Blobs) (pins : Pins) (entry : Node) : Prop where
  entries : ∀ name link, HasEntry blobs entry name link → good blobs pins name link
  loads : ∀ name link, HasEntry blobs entry name link → link.isDir = true →
    ∃ child, loadNode blobs link = some child

/-- The link is good under the name, and so is the tree behind it. -/
structure LinkOf (good : EntryProp) (blobs : Blobs) (pins : Pins) (name : Name)
    (link : NodeLink) : Prop where
  self : good blobs pins name link
  below : link.isDir = true → ∃ child, loadNode blobs link = some child ∧
    TreeOf good blobs pins child

/-- What the operations that put no file need of a condition.  The names of a path satisfy
`entryName`; a rewrite that passes `..` puts a directory under the empty name. -/
structure RewriteRules (good : EntryProp) (entryName : Name → Prop) : Prop where
  grows : ∀ {world world' : World} {pins pins' : Pins} {name : Name} {link : NodeLink},
    good world.blobs pins name link → Grows world world' →
    (∀ hash ∈ pins, hash ∈ pins') → good world'.blobs pins' name link
  dir : ∀ {blobs : Blobs} {pins : Pins} {name : Name} {link : Link} {secret : Secret},
    entryName name ∨ name = [] → link.hash ∈ pins →
    (∃ child, loadNode blobs (.dir link secret) = some child) →
    good blobs pins name (.dir link secret)
  move : ∀ {blobs : Blobs} {pins : Pins} {name name' : Name} {link : NodeLink},
    entryName name' → good blobs pins name link → good blobs pins name' link

/-- What all operations need of a condition that holds of any stored file. -/
structure EntryRules (good : EntryProp) (entryName : Name → Prop) : Prop
    extends RewriteRules good entryName where
  file : ∀ {blobs : Blobs} {pins : Pins} {name : Name} {link : Link} {secret : Secret}
    {mime : Option Name}, entryName name → link.hash ∈ pins →
    (∃ blob, blobs link.hash = some blob) → good blobs pins name (.data link secret mime)

/-- The names of the path. -/
def NamedBy (entryName : Name → Prop) (path : Path) : Prop :=
  ∀ name, .normal name ∈ path → entryName name

section

variable {good : EntryProp} {blobs blobs' : Blobs} {pins pins' : Pins} {node child : Node}
  {name : Name} {link : NodeLink}

theorem TreeOf.of_childDir (h : TreeOf good blobs pins node)
    (hlink : node.getLink name = some link) (hdir : link.isDir = true)
    (hload : loadNode blobs link = some child) : TreeOf good blobs pins child := by
  have hstep : ChildDir blobs node child := ⟨name, link, hlink, hdir, hload⟩
  have hin : ∀ inside found, HasEntry blobs child inside found →
      HasEntry blobs node inside found := by
    intro inside found ⟨inner, hreach, hfound⟩
    exact ⟨inner, hreach.head hstep, hfound⟩
  exact ⟨fun inside found hfound => h.entries inside found (hin inside found hfound),
    fun inside found hfound => h.loads inside found (hin inside found hfound)⟩

theorem TreeOf.linkOf (h : TreeOf good blobs pins node) (hlink : node.getLink name = some link) :
    LinkOf good blobs pins name link := by
  have hin : HasEntry blobs node name link := ⟨node, Relation.ReflTransGen.refl, hlink⟩
  refine ⟨h.entries name link hin, ?_⟩
  intro hdir
  obtain ⟨child, hload⟩ := h.loads name link hin hdir
  exact ⟨child, hload, h.of_childDir hlink hdir hload⟩

theorem TreeOf.of_reach (h : TreeOf good blobs pins node)
    (hreach : Relation.ReflTransGen (ChildDir blobs) node child) :
    TreeOf good blobs pins child := by
  induction hreach with
  | refl => exact h
  | tail _ hstep ih =>
      obtain ⟨name, link, hlink, hdir, hload⟩ := hstep
      exact ih.of_childDir hlink hdir hload

theorem TreeOf.linkOf_of_hasEntry (h : TreeOf good blobs pins node)
    (hlink : HasEntry blobs node name link) : LinkOf good blobs pins name link := by
  obtain ⟨inner, hreach, hfound⟩ := hlink
  exact (h.of_reach hreach).linkOf hfound

/-- The entries of a tree are good when the links of its root are. -/
theorem treeOf_of_links (h : ∀ name link, node.getLink name = some link →
    LinkOf good blobs pins name link) : TreeOf good blobs pins node := by
  have hin : ∀ inside found, HasEntry blobs node inside found →
      LinkOf good blobs pins inside found := by
    intro inside found ⟨inner, hreach, hfound⟩
    rcases hreach.cases_head with rfl | ⟨child, ⟨name, link, hlink, hdir, hload⟩, hrest⟩
    · exact h inside found hfound
    · obtain ⟨loaded, hloaded, htree⟩ := (h name link hlink).below hdir
      rw [hload] at hloaded
      cases hloaded
      exact htree.linkOf_of_hasEntry ⟨inner, hrest, hfound⟩
  refine ⟨fun inside found hfound => (hin inside found hfound).self, ?_⟩
  intro inside found hfound hdir
  obtain ⟨child, hload, _⟩ := (hin inside found hfound).below hdir
  exact ⟨child, hload⟩

theorem treeOf_default (good : EntryProp) (blobs : Blobs) (pins : Pins) :
    TreeOf good blobs pins Node.default := by
  apply treeOf_of_links
  intro name link hlink
  contradiction

theorem TreeOf.insert (h : TreeOf good blobs pins node) (hlink : LinkOf good blobs pins name link) :
    TreeOf good blobs pins (node.insert name link) := by
  apply treeOf_of_links
  intro other found hfound
  rw [Node.getLink_insert] at hfound
  split_ifs at hfound with hname
  · cases hfound
    rw [← hname]
    exact hlink
  · exact h.linkOf hfound

theorem TreeOf.del (h : TreeOf good blobs pins node) (name : Name) :
    TreeOf good blobs pins (node.del name).2 := by
  apply treeOf_of_links
  intro other found hfound
  rw [Node.getLink_del] at hfound
  split_ifs at hfound with hname
  exact h.linkOf hfound

end

/-! ## Later states -/

section

variable {good : EntryProp} {entryName : Name → Prop} (rules : RewriteRules good entryName)
  {world world' : World} {pins pins' : Pins} {node child : Node} {name : Name}
  {link : NodeLink}

/-- A later store has the nodes of the tree, and no others. -/
theorem TreeOf.reach_of_grows (h : TreeOf good world.blobs pins node) (hgrows : Grows world world')
    (hreach : Relation.ReflTransGen (ChildDir world'.blobs) node child) :
    Relation.ReflTransGen (ChildDir world.blobs) node child := by
  induction hreach with
  | refl => exact Relation.ReflTransGen.refl
  | tail _ hstep ih =>
      obtain ⟨name, link, hlink, hdir, hload'⟩ := hstep
      obtain ⟨loaded, hload, _⟩ := ((h.of_reach ih).linkOf hlink).below hdir
      rw [hgrows.loadNode hload] at hload'
      cases hload'
      exact ih.tail ⟨name, link, hlink, hdir, hload⟩

include rules

theorem TreeOf.grows (h : TreeOf good world.blobs pins node) (hgrows : Grows world world')
    (hpins : ∀ hash ∈ pins, hash ∈ pins') : TreeOf good world'.blobs pins' node := by
  have hin : ∀ inside found, HasEntry world'.blobs node inside found →
      HasEntry world.blobs node inside found := by
    intro inside found ⟨inner, hreach, hfound⟩
    exact ⟨inner, h.reach_of_grows hgrows hreach, hfound⟩
  constructor
  · intro inside found hfound
    exact rules.grows (h.entries inside found (hin inside found hfound)) hgrows hpins
  · intro inside found hfound hdir
    obtain ⟨child, hload⟩ := h.loads inside found (hin inside found hfound) hdir
    exact ⟨child, hgrows.loadNode hload⟩

theorem LinkOf.grows (h : LinkOf good world.blobs pins name link) (hgrows : Grows world world')
    (hpins : ∀ hash ∈ pins, hash ∈ pins') : LinkOf good world'.blobs pins' name link := by
  refine ⟨rules.grows h.self hgrows hpins, ?_⟩
  intro hdir
  obtain ⟨child, hload, htree⟩ := h.below hdir
  exact ⟨child, hgrows.loadNode hload, htree.grows rules hgrows hpins⟩

theorem LinkOf.move {name' : Name} (h : LinkOf good world.blobs pins name link)
    (hname : entryName name') : LinkOf good world.blobs pins name' link :=
  ⟨rules.move hname h.self, h.below⟩

/-! ## Rewrites -/

omit rules in
/-- The nodes that a rewrite visits are those of the tree, and empty ones. -/
theorem TreeOf.visitNodes {blobs : Blobs} (h : TreeOf good blobs pins node) {consumed path : Path}
    {visited : List (Path × Node)} (hconsumed : NamedBy entryName consumed)
    (hpath : NamedBy entryName path)
    (hvisit : visitNodes blobs consumed node path = .ok visited) :
    ∀ item ∈ visited, NamedBy entryName item.1 ∧ TreeOf good blobs pins item.2 := by
  induction path generalizing consumed node visited with
  | nil =>
      cases hvisit
      intro item hitem
      exact absurd hitem List.not_mem_nil
  | cons part rest ih =>
      have hnext : NamedBy entryName (consumed ++ [part]) := by
        intro name hname
        rcases List.mem_append.mp hname with hmem | hmem
        · exact hconsumed name hmem
        · rw [List.mem_singleton] at hmem
          exact hpath name (hmem ▸ List.mem_cons_self)
      have hrestPath : NamedBy entryName rest :=
        fun name hname => hpath name (List.mem_cons_of_mem _ hname)
      have hvisited : ∀ (next : Node) (below : List (Path × Node)),
          TreeOf good blobs pins next →
          JaxFs.visitNodes blobs (consumed ++ [part]) next rest = .ok below →
          ∀ item ∈ (consumed ++ [part], next) :: below,
            NamedBy entryName item.1 ∧ TreeOf good blobs pins item.2 := by
        intro next below htree hbelow item hitem
        rcases List.mem_cons.mp hitem with rfl | hlater
        · exact ⟨hnext, htree⟩
        · exact ih htree hnext hrestPath hbelow item hlater
      rw [JaxFs.visitNodes] at hvisit
      cases hlink : node.getLink part.toName with
      | none =>
          rw [hlink] at hvisit
          cases hrest : JaxFs.visitNodes blobs (consumed ++ [part]) Node.default rest with
          | error fault =>
              simp only [hrest] at hvisit
              contradiction
          | ok below =>
              simp only [hrest] at hvisit
              cases hvisit
              exact hvisited _ _ (treeOf_default _ _ _) hrest
      | some found =>
          rw [hlink] at hvisit
          cases found with
          | data link secret mime => contradiction
          | dir link secret =>
              dsimp only at hvisit
              cases hload : getNodeFromBlobs blobs (.dir link secret) with
              | error fault =>
                  simp only [hload] at hvisit
                  contradiction
              | ok next =>
                  have htree : TreeOf good blobs pins next := by
                    apply h.of_childDir hlink rfl
                    rw [loadNode, hload]
                    rfl
                  simp only [hload] at hvisit
                  cases hrest : JaxFs.visitNodes blobs (consumed ++ [part]) next rest with
                  | error fault =>
                      simp only [hrest] at hvisit
                      contradiction
                  | ok below =>
                      simp only [hrest] at hvisit
                      cases hvisit
                      exact hvisited _ _ htree hrest

omit rules [P : Primitives] in
theorem NamedBy.of_fileName {path : Path} (h : NamedBy entryName path) {name : Name}
    (hname : path.fileName = some name) : entryName name := by
  apply h name
  unfold Path.fileName at hname
  split at hname
  · next hlast =>
      cases hname
      exact List.mem_of_getLast? hlast
  · cases hname

omit rules [P : Primitives] in
/-- The name that the write-back takes from a visited path. -/
theorem NamedBy.fileName {path : Path} (h : NamedBy entryName path) :
    entryName (path.fileName.getD []) ∨ path.fileName.getD [] = [] := by
  cases hname : path.fileName with
  | none => exact Or.inr rfl
  | some name => exact Or.inl (h.of_fileName hname)

variable [LawfulPrimitives]

/-- A node that has been put makes a good directory when its hash is pinned. -/
theorem linkOf_of_putNodeInBlobs {secret : Secret} {nodeLink : Link}
    (h : TreeOf good world.blobs pins node)
    (hput : (putNodeInBlobs node secret).run world = .ok nodeLink world')
    (hpinned : nodeLink.hash ∈ pins) (hname : entryName name ∨ name = []) :
    LinkOf good world'.blobs pins name (.dir nodeLink secret) := by
  obtain ⟨putLink, putWorld, hrun, hgrows, hload⟩ := putNodeInBlobs_spec node secret world
  rw [hput] at hrun
  cases hrun
  exact ⟨rules.dir hname hpinned ⟨node, hload⟩,
    fun _ => ⟨node, hload, h.grows rules hgrows (fun _ hhash => hhash)⟩⟩

/-- The write-back makes good directories of nodes that are good. -/
theorem linkOf_of_writeNodes {visited : List (Path × Node)} {root : NodeLink}
    {hashes : List Hash}
    (hvisited : ∀ item ∈ visited, NamedBy entryName item.1 ∧ TreeOf good world.blobs pins item.2)
    (hlink : LinkOf good world.blobs pins name link)
    (hrun : (writeNodes visited name link).run world = .ok (root, hashes) world')
    (hpins : ∀ hash ∈ hashes, hash ∈ pins) : ∃ name', LinkOf good world'.blobs pins name' root := by
  induction visited generalizing name link world hashes with
  | nil =>
      cases hrun
      exact ⟨name, hlink⟩
  | cons item rest ih =>
      obtain ⟨path, node⟩ := item
      rw [writeNodes] at hrun
      obtain ⟨secret, first, hsecret, hrun⟩ := EStateM.run_bind_eq_ok_iff.mp hrun
      obtain ⟨nodeLink, second, hput, hrun⟩ := EStateM.run_bind_eq_ok_iff.mp hrun
      obtain ⟨⟨rootLink, created⟩, last, hwrite, hdone⟩ := EStateM.run_bind_eq_ok_iff.mp hrun
      cases hdone
      have hfirst : Grows world first := grows_generateSecret.of_ok hsecret
      have hsecond : Grows first second := (grows_putNodeInBlobs _ _).of_ok hput
      obtain ⟨hpath, htree⟩ := hvisited (path, node) List.mem_cons_self
      have hinserted : TreeOf good first.blobs pins (node.insert name link) :=
        (htree.grows rules hfirst (fun _ hhash => hhash)).insert
          (hlink.grows rules hfirst (fun _ hhash => hhash))
      have hnew := linkOf_of_putNodeInBlobs rules hinserted hput (hpins _ List.mem_cons_self)
        hpath.fileName
      apply ih ?_ hnew hwrite
      · exact fun hash hhash => hpins hash (List.mem_cons_of_mem _ hhash)
      · intro later hlater
        obtain ⟨hlaterPath, hlaterTree⟩ := hvisited later (List.mem_cons_of_mem _ hlater)
        exact ⟨hlaterPath,
          hlaterTree.grows rules (hfirst.trans hsecond) (fun _ hhash => hhash)⟩

omit rules [LawfulPrimitives] in
theorem isDir_of_writeNodes {visited : List (Path × Node)} {root : NodeLink}
    {hashes : List Hash} (hdir : visited ≠ [] ∨ link.isDir = true)
    (hrun : (writeNodes visited name link).run world = .ok (root, hashes) world') :
    root.isDir = true := by
  induction visited generalizing name link world hashes with
  | nil =>
      cases hrun
      exact hdir.resolve_left (fun hne => hne rfl)
  | cons item rest ih =>
      obtain ⟨path, node⟩ := item
      rw [writeNodes] at hrun
      obtain ⟨secret, first, -, hrun⟩ := EStateM.run_bind_eq_ok_iff.mp hrun
      obtain ⟨nodeLink, second, -, hrun⟩ := EStateM.run_bind_eq_ok_iff.mp hrun
      obtain ⟨⟨rootLink, created⟩, last, hwrite, hdone⟩ := EStateM.run_bind_eq_ok_iff.mp hrun
      cases hdone
      exact ih (Or.inr rfl) hwrite

omit rules [LawfulPrimitives] in
/-- A rewrite that succeeds has visited the nodes on the way and written them back. -/
theorem writeNodes_of_setNodeLinkAtPath {path : Path} {root : NodeLink} {hashes : List Hash}
    (hrun : (setNodeLinkAtPath node link path).run world = .ok (root, hashes) world') :
    ∃ visited fileName, Path.fileName path.tail = some fileName ∧
      JaxFs.visitNodes world.blobs [.rootDir] node ((Path.parent path.tail).getD []) = .ok visited ∧
      (writeNodes (([.rootDir], node) :: visited).reverse fileName link).run world =
        .ok (root, hashes) world' := by
  unfold setNodeLinkAtPath at hrun
  obtain ⟨cleaned, first, hclean, hnamed⟩ := EStateM.run_bind_eq_ok_iff.mp hrun
  obtain ⟨hcleaned, rfl⟩ := EStateM.run_ofExcept_eq_ok_iff.mp hclean
  have htail : cleaned = path.tail := by
    unfold cleanPath at hcleaned
    split_ifs at hcleaned
    cases hcleaned
    rfl
  subst htail
  cases hname : Path.fileName path.tail with
  | none =>
      rw [hname] at hnamed
      contradiction
  | some fileName =>
      rw [hname] at hnamed
      dsimp only at hnamed
      obtain ⟨found, second, hworld, hvisits⟩ := EStateM.run_bind_eq_ok_iff.mp hnamed
      cases hworld
      obtain ⟨visited, third, hvisit, hwrite⟩ := EStateM.run_bind_eq_ok_iff.mp hvisits
      obtain ⟨hvisited, rfl⟩ := EStateM.run_ofExcept_eq_ok_iff.mp hvisit
      exact ⟨visited, fileName, rfl, hvisited, hwrite⟩

omit rules [LawfulPrimitives] in
theorem isDir_of_setNodeLinkAtPath {path : Path} {root : NodeLink} {hashes : List Hash}
    (hrun : (setNodeLinkAtPath node link path).run world = .ok (root, hashes) world') :
    root.isDir = true := by
  obtain ⟨visited, fileName, -, -, hwrite⟩ := writeNodes_of_setNodeLinkAtPath hrun
  exact isDir_of_writeNodes (Or.inl (by simp)) hwrite

omit rules [P : Primitives] [LawfulPrimitives] in
theorem mem_parent {path : Path} {part : Component} (h : part ∈ path.parent.getD []) :
    part ∈ path := by
  unfold Path.parent at h
  split at h
  · cases h
  · cases h
  · exact List.mem_of_mem_dropLast h

/-- A good link that is set in a good tree leaves a good tree. -/
theorem treeOf_of_setNodeLinkAtPath {path : Path} {root : NodeLink} {hashes : List Hash}
    (h : TreeOf good world.blobs pins node) (hpath : NamedBy entryName path)
    (hlink : ∀ name, entryName name → LinkOf good world.blobs pins name link)
    (hrun : (setNodeLinkAtPath node link path).run world = .ok (root, hashes) world')
    (hpins : ∀ hash ∈ hashes, hash ∈ pins) :
    ∃ child, loadNode world'.blobs root = some child ∧ TreeOf good world'.blobs pins child := by
  obtain ⟨visited, fileName, hname, hvisited, hwrite⟩ := writeNodes_of_setNodeLinkAtPath hrun
  have hparts : NamedBy entryName path.tail :=
    fun name hmem => hpath name (List.mem_of_mem_tail hmem)
  have hfileName : entryName fileName := hparts.of_fileName hname
  have hnodes : ∀ item ∈ (([.rootDir], node) :: visited).reverse,
      NamedBy entryName item.1 ∧ TreeOf good world.blobs pins item.2 := by
    have hroot : NamedBy entryName [.rootDir] := by
      intro name hmem
      simp at hmem
    have hparents : NamedBy entryName ((Path.parent path.tail).getD []) :=
      fun name hmem => hparts name (mem_parent hmem)
    intro item hitem
    rcases List.mem_cons.mp (List.mem_reverse.mp hitem) with rfl | hlater
    · exact ⟨hroot, h⟩
    · exact h.visitNodes hroot hparents hvisited item hlater
  obtain ⟨name', hroot⟩ :=
    linkOf_of_writeNodes rules hnodes (hlink fileName hfileName) hwrite hpins
  exact hroot.below (isDir_of_setNodeLinkAtPath hrun)

end

/-! ## Mounts -/

/-- The tree of the mount is good. -/
def MountOf (good : EntryProp) (state : MountState) : Prop :=
  TreeOf good state.world.blobs state.inner.pins state.inner.entry

section

variable {good : EntryProp} {entryName : Name → Prop} (rules : RewriteRules good entryName)
  {state : MountState} {α β : Type}

theorem MountOf.ofExcept_bind (h : MountOf good state) {x : Except Fault α}
    {f : α → MountM β} (hok : ∀ a, x = .ok a → MountOf good ((f a).run state).state) :
    MountOf good ((EStateM.ofExcept x >>= f).run state).state := by
  cases x with
  | ok a => exact hok a rfl
  | error fault => exact h

theorem MountOf.readBlobs_bind (h : MountOf good state) {x : Blobs → Except Fault α}
    {f : α → MountM β}
    (hok : ∀ a, x state.world.blobs = .ok a → MountOf good ((f a).run state).state) :
    MountOf good ((readBlobs x >>= f).run state).state := by
  cases hread : x state.world.blobs with
  | ok a =>
      rw [EStateM.run_bind_of_ok (run_readBlobs_of_ok hread)]
      exact hok a hread
  | error fault =>
      rw [EStateM.run_bind_of_error (run_readBlobs_of_error hread)]
      exact h

theorem MountOf.reloadRoot_bind (h : MountOf good state) {root : NodeLink} {pins : Pins}
    {child : Node} (hload : loadNode state.world.blobs root = some child)
    (hchild : TreeOf good state.world.blobs pins child)
    (hentry : TreeOf good state.world.blobs pins state.inner.entry)
    {f : Option Node → MountM β}
    (hok : ∀ newEntry : Option Node,
      TreeOf good state.world.blobs pins (newEntry.getD state.inner.entry) →
      MountOf good ((f newEntry).run state).state) :
    MountOf good ((reloadRoot root >>= f).run state).state := by
  unfold reloadRoot
  cases root with
  | data link secret mime => exact hok none hentry
  | dir link secret =>
      rw [bind_assoc]
      apply h.readBlobs_bind
      intro entry hread
      apply hok (some entry)
      rw [getNodeFromBlobs_of_loadNode hload] at hread
      cases hread
      exact hchild

/-! ## Nodes from elsewhere -/

/-- No file on the way along the path is read as a node. -/
def ThroughDirs (blobs : Blobs) : Node → Path → Prop
  | _, [] => True
  | node, part :: rest => ∀ link child, node.getLink part.toName = some link →
      loadNode blobs link = some child → link.isDir = true ∧ ThroughDirs blobs child rest

/-- The parent of the path is reached through directories. -/
def ParentThroughDirs (blobs : Blobs) (entry : Node) (path : Path) : Prop :=
  ∀ cleaned parentPath, cleanPath path = .ok cleaned → cleaned.parent = some parentPath →
    ThroughDirs blobs entry parentPath

theorem TreeOf.of_getNodeAtPathFrom {blobs : Blobs} {pins : Pins} {node child : Node}
    (h : TreeOf good blobs pins node) {consumed path : Path} (hdirs : ThroughDirs blobs node path)
    (hread : getNodeAtPathFrom blobs consumed node path = .ok child) :
    TreeOf good blobs pins child := by
  induction path generalizing consumed node with
  | nil =>
      cases hread
      exact h
  | cons part rest ih =>
      rw [getNodeAtPathFrom] at hread
      cases hlink : node.getLink part.toName with
      | none =>
          rw [hlink] at hread
          contradiction
      | some link =>
          simp only [hlink] at hread
          cases hload : getNodeFromBlobs blobs link with
          | error fault =>
              simp only [hload] at hread
              contradiction
          | ok next =>
              simp only [hload] at hread
              have hnext : loadNode blobs link = some next := by
                rw [loadNode, hload]
                rfl
              obtain ⟨hdir, hrest⟩ := hdirs link next hlink hnext
              exact ih (h.of_childDir hlink hdir hnext) hrest hread

theorem TreeOf.of_getParentNode {blobs : Blobs} {pins : Pins} {node parentNode : Node}
    (h : TreeOf good blobs pins node) {path : Path} (hdirs : ThroughDirs blobs node path)
    (hread : getParentNode blobs node path = .ok parentNode) :
    TreeOf good blobs pins parentNode := by
  unfold getParentNode at hread
  split_ifs at hread with hroot
  · cases hread
    exact h
  · exact h.of_getNodeAtPathFrom hdirs hread

/-- `get` looks its last name up in the parent. -/
theorem getLink_of_get {blobs : Blobs} {entry parentNode : Node} {path cleaned : Path}
    {parentPath : Path} {fileName : Name} {link : NodeLink}
    (hget : get blobs entry path = .ok link) (hclean : cleanPath path = .ok cleaned)
    (hparent : cleaned.parent = some parentPath) (hname : cleaned.fileName = some fileName)
    (hread : getParentNode blobs entry parentPath = .ok parentNode) :
    parentNode.getLink fileName = some link := by
  unfold get parentAndName at hget
  simp only [hclean, hparent, hname, hread, bind, Except.bind] at hget
  cases hlink : parentNode.getLink fileName with
  | none =>
      rw [hlink] at hget
      contradiction
  | some found =>
      rw [hlink] at hget
      cases hget
      rfl

/-! ## Operations -/

include rules

theorem MountOf.grows (h : MountOf good state) {world' : World}
    (hgrows : Grows state.world world') : MountOf good { state with world := world' } :=
  TreeOf.grows rules h hgrows (fun _ hhash => hhash)

/-- The parts of an operation that leave the mount alone. -/
theorem MountOf.onBlobs_bind (h : MountOf good state) {x : BlobM α} {f : α → MountM β}
    (hx : EStateM.Preserves Grows x)
    (hok : ∀ a world', x.run state.world = .ok a world' →
      MountOf good { state with world := world' } →
      MountOf good ((f a).run { state with world := world' }).state) :
    MountOf good ((onBlobs x >>= f).run state).state := by
  cases hrun : x.run state.world with
  | ok a world' =>
      rw [EStateM.run_bind_of_ok (run_onBlobs_of_ok hrun)]
      exact hok a world' hrun (h.grows rules (hx.of_ok hrun))
  | error fault world' =>
      rw [EStateM.run_bind_of_error (run_onBlobs_of_error hrun)]
      exact h.grows rules (hx.of_error hrun)

theorem TreeOf.addPins {inner : MountInner} {world : World} {node : Node}
    (h : TreeOf good world.blobs inner.pins node) (hashes : List Hash) :
    TreeOf good world.blobs (inner.pins.extend hashes) node :=
  h.grows rules (Grows.refl world) (fun _ hhash => Pins.mem_extend.mpr (Or.inl hhash))

variable [LawfulPrimitives]

/-- The data that is added makes good files. -/
theorem mountOf_add_of_file (h : MountOf good state) {path : Path}
    (hpath : NamedBy entryName path) {data : Bytes}
    (hgood : ∀ {blobs : Blobs} {pins : Pins} {name : Name} {link : Link} {secret : Secret}
      {mime : Option Name} {blob : Bytes}, entryName name → link.hash ∈ pins →
      blobs link.hash = some blob → secret.decrypt blob = some data →
      good blobs pins name (.data link secret mime)) :
    MountOf good ((add path data).run state).state := by
  obtain ⟨hash, secret, world', blob, hgrows, hblob, hdata, hrun⟩ := run_storeFile data state
  have h' := h.grows rules hgrows
  unfold add
  rw [hrun, run_getThe_bind]
  apply h'.onBlobs_bind rules (grows_setNodeLinkAtPath _ _ _)
  intro ⟨root, nodeHashes⟩ last hset hlast
  have hpins : ∀ found ∈ hash :: nodeHashes,
      found ∈ state.inner.pins.extend (hash :: nodeHashes) := fun found hfound =>
    Pins.mem_extend.mpr (Or.inr hfound)
  have hfile : ∀ name, entryName name → LinkOf good world'.blobs
      (state.inner.pins.extend (hash :: nodeHashes)) name
      (.data ⟨ldRawCodec, hash⟩ secret (P.mimeFromPath path)) := by
    intro name hname
    exact ⟨hgood hname (hpins hash List.mem_cons_self) hblob hdata,
      fun hdir => by contradiction⟩
  obtain ⟨child, hload, hchild⟩ := treeOf_of_setNodeLinkAtPath rules
    (TreeOf.addPins rules h' _) hpath hfile hset
    (fun found hfound => hpins found (List.mem_cons_of_mem _ hfound))
  apply hlast.reloadRoot_bind hload hchild (TreeOf.addPins rules hlast _)
  intro newEntry hentry
  apply hlast.ofExcept_bind
  intro cleaned _
  exact hentry

omit rules in
theorem mountOf_add (entryRules : EntryRules good entryName) (h : MountOf good state)
    {path : Path} (hpath : NamedBy entryName path) (data : Bytes) :
    MountOf good ((add path data).run state).state := by
  apply mountOf_add_of_file entryRules.toRewriteRules h hpath
  exact fun hname hpinned hblob _ => entryRules.file hname hpinned ⟨_, hblob⟩

theorem mountOf_mkdir (h : MountOf good state) {path : Path} (hpath : NamedBy entryName path) :
    MountOf good ((mkdir path).run state).state := by
  unfold mkdir
  apply h.ofExcept_bind
  intro cleaned hclean
  have hcleaned : NamedBy entryName (.rootDir :: cleaned) := by
    intro name hname
    unfold cleanPath at hclean
    split_ifs at hclean
    cases hclean
    apply hpath name
    rcases List.mem_cons.mp hname with hroot | hmem
    · cases hroot
    · exact List.mem_of_mem_tail hmem
  rw [run_getThe_bind]
  apply h.ofExcept_bind
  intro split _
  cases split with
  | none => exact h
  | some split =>
      obtain ⟨parentPath, dirName⟩ := split
      dsimp only
      apply h.readBlobs_bind
      intro parentNode _
      split_ifs
      · exact h
      · apply h.onBlobs_bind rules grows_generateSecret
        intro secret world1 _ h1
        apply h1.onBlobs_bind rules (grows_putNodeInBlobs _ _)
        intro dirLink world2 hput h2
        apply h2.onBlobs_bind rules (grows_setNodeLinkAtPath _ _ _)
        intro ⟨root, nodeHashes⟩ world3 hset h3
        have hpins : ∀ found ∈ dirLink.hash :: nodeHashes,
            found ∈ state.inner.pins.extend (dirLink.hash :: nodeHashes) :=
          fun found hfound => Pins.mem_extend.mpr (Or.inr hfound)
        have hdir : ∀ name, entryName name → LinkOf good world2.blobs
            (state.inner.pins.extend (dirLink.hash :: nodeHashes)) name (.dir dirLink secret) :=
          fun name hname => linkOf_of_putNodeInBlobs rules (treeOf_default _ _ _) hput
            (hpins _ List.mem_cons_self) (Or.inl hname)
        obtain ⟨child, hload, hchild⟩ := treeOf_of_setNodeLinkAtPath rules
          (TreeOf.addPins rules h2 _) hcleaned hdir hset
          (fun found hfound => hpins found (List.mem_cons_of_mem _ hfound))
        apply h3.reloadRoot_bind hload hchild (TreeOf.addPins rules h3 _)
        exact fun newEntry hentry => hentry

theorem mountOf_replaceParent (h : MountOf good state) {parentPath : Path}
    (hpath : NamedBy entryName parentPath) {parentNode : Node}
    (hnode : TreeOf good state.world.blobs state.inner.pins parentNode) :
    MountOf good ((replaceParent state.inner.entry parentPath parentNode).run state).state := by
  unfold replaceParent
  split_ifs with hroot
  · apply h.onBlobs_bind rules grows_generateSecret
    intro secret world1 hsecret h1
    have hnode1 := hnode.grows rules (grows_generateSecret.of_ok hsecret) (fun _ hhash => hhash)
    apply h1.onBlobs_bind rules (grows_putNodeInBlobs _ _)
    intro link world2 hput h2
    exact TreeOf.addPins rules (hnode1.grows rules ((grows_putNodeInBlobs _ _).of_ok hput)
      (fun _ hhash => hhash)) _
  · apply h.onBlobs_bind rules grows_generateSecret
    intro secret world1 hsecret h1
    have hnode1 := hnode.grows rules (grows_generateSecret.of_ok hsecret) (fun _ hhash => hhash)
    apply h1.onBlobs_bind rules (grows_putNodeInBlobs _ _)
    intro parentLink world2 hput h2
    apply h2.onBlobs_bind rules (grows_setNodeLinkAtPath _ _ _)
    intro ⟨root, nodeHashes⟩ world3 hset h3
    have hpins : ∀ found ∈ parentLink.hash :: nodeHashes,
        found ∈ state.inner.pins.extend (parentLink.hash :: nodeHashes) :=
      fun found hfound => Pins.mem_extend.mpr (Or.inr hfound)
    have hparent : ∀ name, entryName name → LinkOf good world2.blobs
        (state.inner.pins.extend (parentLink.hash :: nodeHashes)) name
        (.dir parentLink secret) :=
      fun name hname => linkOf_of_putNodeInBlobs rules (TreeOf.addPins rules hnode1 _) hput
        (hpins _ List.mem_cons_self) (Or.inl hname)
    have habsolute : NamedBy entryName (.rootDir :: parentPath) := by
      intro name hname
      rcases List.mem_cons.mp hname with hhead | hmem
      · cases hhead
      · exact hpath name hmem
    obtain ⟨child, hload, hchild⟩ := treeOf_of_setNodeLinkAtPath rules
      (TreeOf.addPins rules h2 _) habsolute hparent hset
      (fun found hfound => hpins found (List.mem_cons_of_mem _ hfound))
    apply h3.reloadRoot_bind hload hchild (TreeOf.addPins rules h3 _)
    exact fun newEntry hentry => hentry

omit rules [P : Primitives] [LawfulPrimitives] in
theorem NamedBy.parent {path cleaned parentPath : Path} (h : NamedBy entryName path)
    (hclean : cleanPath path = .ok cleaned) (hparent : cleaned.parent = some parentPath) :
    NamedBy entryName parentPath := by
  intro name hname
  unfold cleanPath at hclean
  split_ifs at hclean
  cases hclean
  have hmem : .normal name ∈ (Path.parent path.tail).getD [] := by
    rw [hparent]
    exact hname
  exact h name (List.mem_of_mem_tail (mem_parent hmem))

theorem mountOf_rm (h : MountOf good state) {path : Path} (hpath : NamedBy entryName path)
    (hdirs : ParentThroughDirs state.world.blobs state.inner.entry path) :
    MountOf good ((rm path).run state).state := by
  unfold rm
  apply h.ofExcept_bind
  intro cleaned hclean
  cases hparent : cleaned.parent with
  | none => exact h
  | some parentPath =>
      dsimp only
      rw [run_getThe_bind]
      apply h.readBlobs_bind
      intro parentNode hread
      have hnode := TreeOf.of_getParentNode h (hdirs cleaned parentPath hclean hparent) hread
      cases cleaned.fileName with
      | none => exact h
      | some fileName =>
          dsimp only
          cases hdel : parentNode.del fileName with
          | mk removed rest =>
              cases removed with
              | none => exact h
              | some removed =>
                  have hrest : TreeOf good state.world.blobs state.inner.pins rest := by
                    have htree := hnode.del fileName
                    rw [hdel] at htree
                    exact htree
                  have hreplaced := mountOf_replaceParent rules h
                    (hpath.parent hclean hparent) hrest
                  apply EStateM.state_bind
                  · intro fault middle hrun
                    rw [hrun] at hreplaced
                    exact hreplaced
                  · intro _ middle hrun
                    rw [hrun] at hreplaced
                    exact hreplaced

/-- The nodes whose trees are good stay so. -/
theorem treeOf_replaceParent {node : Node} {middle : MountState} (entry : Node)
    (parentPath : Path) (parentNode : Node)
    (h : TreeOf good state.world.blobs state.inner.pins node)
    (hrun : ((replaceParent entry parentPath parentNode).run state).state = middle) :
    TreeOf good middle.world.blobs middle.inner.pins node := by
  have hkeeps : EStateM.Preserves (fun state state' : MountState =>
      TreeOf good state.world.blobs state.inner.pins node →
        TreeOf good state'.world.blobs state'.inner.pins node)
      (replaceParent entry parentPath parentNode) := by
    apply preserves_replaceParent
    · exact fun _ h => h
    · exact fun _ _ _ h h' hnode => h' (h hnode)
    · exact fun _ _ hgrows hnode => hnode.grows rules hgrows (fun _ hhash => hhash)
    · exact fun _ hashes _ hnode => TreeOf.addPins rules hnode hashes
  rw [← hrun]
  exact hkeeps state h

theorem mountOf_mvInsert (h : MountOf good state) {nodeLink : NodeLink}
    {sourceClean target targetClean : Path} (hpath : NamedBy entryName target)
    (hlink : ∀ name, entryName name →
      LinkOf good state.world.blobs state.inner.pins name nodeLink) :
    MountOf good ((mvInsert nodeLink sourceClean target targetClean).run state).state := by
  unfold mvInsert
  rw [run_getThe_bind]
  apply h.onBlobs_bind rules (grows_setNodeLinkAtPath _ _ _)
  intro ⟨root, nodeHashes⟩ world' hset h'
  have hpins : ∀ found, found ∈ state.inner.pins ∨ found ∈ nodeHashes →
      found ∈ state.inner.pins.extend nodeHashes := fun found hfound =>
    Pins.mem_extend.mpr hfound
  have hlink' : ∀ name, entryName name → LinkOf good state.world.blobs
      (state.inner.pins.extend nodeHashes) name nodeLink :=
    fun name hname => (hlink name hname).grows rules (Grows.refl _)
      (fun found hfound => hpins found (Or.inl hfound))
  obtain ⟨child, hload, hchild⟩ := treeOf_of_setNodeLinkAtPath rules
    (TreeOf.addPins rules h nodeHashes) hpath hlink' hset
    (fun found hfound => hpins found (Or.inr hfound))
  apply h'.readBlobs_bind
  intro newEntry hread
  rw [getNodeFromBlobs_of_loadNode hload] at hread
  cases hread
  exact hchild

theorem mountOf_mv (h : MountOf good state) {source target : Path}
    (hsource : NamedBy entryName source) (htarget : NamedBy entryName target)
    (hdirs : ParentThroughDirs state.world.blobs state.inner.entry source) :
    MountOf good ((mv source target).run state).state := by
  unfold mv
  apply h.ofExcept_bind
  intro sourceClean hclean
  apply h.ofExcept_bind
  intro targetClean _
  split_ifs
  · exact h
  rw [run_getThe_bind]
  apply h.readBlobs_bind
  intro nodeLink hget
  split
  · exact h
  · cases hparent : sourceClean.parent with
    | none => exact h
    | some parentPath =>
        apply h.readBlobs_bind
        intro parentNode hread
        have hnode := TreeOf.of_getParentNode h (hdirs sourceClean parentPath hclean hparent)
          hread
        cases hname : sourceClean.fileName with
        | none => exact h
        | some fileName =>
            dsimp only
            cases hdel : parentNode.del fileName with
            | mk removed rest =>
                cases removed with
                | none => exact h
                | some removed =>
                    have hlink := getLink_of_get hget hclean hparent hname hread
                    have hrest : TreeOf good state.world.blobs state.inner.pins rest := by
                      have htree := hnode.del fileName
                      rw [hdel] at htree
                      exact htree
                    have hreplaced := mountOf_replaceParent rules h
                      (hsource.parent hclean hparent) hrest
                    apply EStateM.state_bind
                    · intro fault middle hrun
                      rw [hrun] at hreplaced
                      exact hreplaced
                    · intro _ middle hrun
                      have hkept := treeOf_replaceParent rules state.inner.entry parentPath rest
                        hnode (congrArg EStateM.Result.state hrun)
                      rw [hrun] at hreplaced
                      apply mountOf_mvInsert rules hreplaced htarget
                      exact fun name hname => (hkept.linkOf hlink).move rules hname
  · exact h

end

/-! ## Merges -/

section

variable {good : EntryProp} (rules : RewriteRules good (fun _ => True)) {state : MountState}

omit P in
theorem namedBy_true (path : Path) : NamedBy (fun _ => True) path := fun _ _ => trivial

variable [LawfulPrimitives]

include rules

theorem mountOf_applyResolved (h : MountOf good state) (path : Path) (op : PathOperation) :
    MountOf good ((applyResolved path op).run state).state := by
  unfold applyResolved
  dsimp only
  split_ifs
  · rw [run_getThe_bind]
    split <;> exact h
  · have hmkdir := mountOf_mkdir rules h (namedBy_true (Path.join [.rootDir] path))
    rw [run_mkdirIfMissing]
    split
    · next hrun =>
        rw [hrun] at hmkdir
        exact hmkdir
    · exact hmkdir
  · exact h

theorem mountOf_applyAll (h : MountOf good state) (resolved : List (Path × PathOperation)) :
    MountOf good ((applyAll resolved).run state).state := by
  induction resolved generalizing state with
  | nil => exact h
  | cons first rest ih =>
      have hfirst := mountOf_applyResolved rules h first.1 first.2
      apply EStateM.state_bind
      · intro fault middle hrun
        rw [hrun] at hfirst
        exact hfirst
      · intro _ middle hrun
        rw [hrun] at hfirst
        exact ih hfirst

end

end

end JaxFs

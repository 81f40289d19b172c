import JaxFs.LoggedTree
import JaxFs.PinsCover
import JaxFs.SubtreeListing

/-!
# What a lookup goes through

`_get_node_at_path` takes the next node from whatever link has the name, and only the
bytes behind it say whether it is a node.  In a tree without files that decode as nodes it
goes through directories alone, and the operations keep a tree so when no such file is
added.  One that is added is a directory to every read.
-/

namespace JaxFs

section

variable [P : Primitives]

/-! ## Files that are no nodes -/

/-- The entry is a directory, or a file with bytes that are no node. -/
def NoNode : EntryProp := fun blobs _ _ link =>
  link.isDir = false → ∃ blob data, blobs link.link.hash = some blob ∧
    link.secret.decrypt blob = some data ∧ P.decodeNode data = none

section

variable {blobs : Blobs} {pins : Pins} {node child : Node} {name : Name} {names : List Name}
  {link : NodeLink}

theorem NoNode.isDir_of_loadNode (h : NoNode blobs pins name link)
    (hload : loadNode blobs link = some child) : link.isDir = true := by
  by_contra hfile
  obtain ⟨blob, data, hblob, hdata, hnone⟩ := h (Bool.eq_false_iff.mpr hfile)
  simp [loadNode, getNodeFromBlobs, hblob, hdata, hnone, Except.toOption] at hload

theorem noNodeRules : RewriteRules NoNode (fun _ => True) where
  grows := by
    intro world world' pins pins' name link h hgrows _ hfile
    obtain ⟨blob, data, hblob, hdata, hnone⟩ := h hfile
    exact ⟨blob, data, hgrows.blobs _ _ hblob, hdata, hnone⟩
  dir := by
    intro blobs pins name link secret _ _ _ hfile
    contradiction
  move := fun _ h => h

/-- A lookup in such a tree comes through directories. -/
theorem TreeOf.dirAt_of_walkNode (h : TreeOf NoNode blobs pins node)
    (hwalk : walkNode blobs node names = some child) : dirAt blobs node names = some child := by
  induction names generalizing node with
  | nil => exact hwalk
  | cons first rest ih =>
      rw [walkNode] at hwalk
      obtain ⟨next, hnext, hbelow⟩ := Option.bind_eq_some_iff.mp hwalk
      obtain ⟨link, hlink, hload⟩ := Option.bind_eq_some_iff.mp hnext
      have hdir := (h.linkOf hlink).self.isDir_of_loadNode hload
      rw [dirAt, hlink, Option.bind_some, dirNode_eq_some_iff.mpr ⟨hdir, hload⟩,
        Option.bind_some]
      exact ih (h.of_childDir hlink hdir hload) hbelow

theorem TreeOf.throughDirs (h : TreeOf NoNode blobs pins node) (path : Path) :
    ThroughDirs blobs node path := by
  induction path generalizing node with
  | nil => trivial
  | cons part rest ih =>
      intro link child hlink hload
      have hdir := (h.linkOf hlink).self.isDir_of_loadNode hload
      exact ⟨hdir, ih (h.of_childDir hlink hdir hload)⟩

theorem exists_linkAt_of_dirAt (hnames : names ≠ []) (h : dirAt blobs node names = some child) :
    ∃ link, linkAt blobs node names = some link ∧ link.isDir = true := by
  obtain ⟨parents, last, rfl⟩ := (List.eq_nil_or_concat names).resolve_left hnames
  rw [List.concat_eq_append] at h ⊢
  rw [dirAt_append] at h
  obtain ⟨parent, hparent, h⟩ := Option.bind_eq_some_iff.mp h
  rw [dirAt] at h
  obtain ⟨below, hbelow, -⟩ := Option.bind_eq_some_iff.mp h
  obtain ⟨link, hlink, hdir⟩ := Option.bind_eq_some_iff.mp hbelow
  refine ⟨link, ?_, (dirNode_eq_some_iff.mp hdir).1⟩
  rw [linkAt_append_of_dirAt hparent (by simp)]
  exact hlink

end

/-! ## The directories of a path -/

/-- The root, or a link to a directory that is found behind directories. -/
def IsDirectory (state : MountState) (names : List Name) : Prop :=
  names = [] ∨ ∃ link, linkAt state.world.blobs state.inner.entry names = some link ∧
    link.isDir = true

def DirsAbove (state : MountState) (names : List Name) : Prop :=
  ∀ above, above <+: names → above ≠ names → IsDirectory state above

def Path.names (path : Path) : List Name := path.map Component.toName

/-- What is read, listed, removed or made is so in a directory.  A `mkdir` makes the
directories that are missing; one that passes `..` gives them other names. -/
structure OnlyDirsTraversed (state : MountState) : Prop where
  get : ∀ (p : AbsolutePath) link, state.get p.path = .ok link → DirsAbove state p.parts.names
  cat : ∀ (p : AbsolutePath) data, state.cat p.path = .ok data → DirsAbove state p.parts.names
  ls : ∀ (p : AbsolutePath) items, state.ls p.path = .ok items →
    IsDirectory state p.parts.names ∧ DirsAbove state p.parts.names
  rm : ∀ (p : AbsolutePath) state', (rm p.path).run state = .ok () state' →
    DirsAbove state p.parts.names
  mkdir : ∀ (p : AbsolutePath) state', .parentDir ∉ p.parts →
    (mkdir p.path).run state = .ok () state' → DirsAbove state' p.parts.names

section

variable {state state' : MountState} {names : List Name} {node : Node}

theorem isDirectory_of_dirAt {above : List Name}
    (h : dirAt state.world.blobs state.inner.entry names = some node) (hpre : above <+: names) :
    IsDirectory state above := by
  by_cases habove : above = []
  · exact Or.inl habove
  · right
    obtain ⟨rest, rfl⟩ := hpre
    rw [dirAt_append] at h
    obtain ⟨inner, hinner, -⟩ := Option.bind_eq_some_iff.mp h
    exact exists_linkAt_of_dirAt habove hinner

variable (h : MountOf NoNode state)

include h

/-- The paths of the reads and of `rm` end in a name that is looked up in its parent. -/
theorem dirsAbove_of_parent {parts parent : Path} {name : Name}
    (hparts : parts = parent ++ [.normal name])
    (hread : getParentNode state.world.blobs state.inner.entry parent = .ok node) :
    DirsAbove state parts.names := by
  have hdir := TreeOf.dirAt_of_walkNode h (getParentNode_eq_ok_iff.mp hread)
  have hnames : parts.names = parent.names ++ [name] := by
    simp [hparts, Path.names, Component.toName]
  intro above hpre hne
  rw [hnames] at hpre hne
  rcases List.prefix_concat_iff.mp hpre with heq | hpre
  · exact absurd heq hne
  · exact isDirectory_of_dirAt hdir hpre

theorem dirsAbove_of_ls {p : AbsolutePath} {items : FinMap Path NodeLink}
    (hls : state.ls p.path = .ok items) :
    IsDirectory state p.parts.names ∧ DirsAbove state p.parts.names := by
  have hclean : cleanPath p.path = .ok p.parts := rfl
  have hread : ∃ node, getParentNode state.world.blobs state.inner.entry p.parts = .ok node := by
    unfold MountState.ls ls at hls
    rw [hclean] at hls
    obtain ⟨cleaned, hcleaned, hbody⟩ := Except.bind_eq_ok_iff.mp hls
    cases hcleaned
    unfold getParentNode
    dsimp only at hbody
    split_ifs at hbody ⊢ with hroot
    · exact ⟨_, rfl⟩
    · split at hbody
      · contradiction
      · obtain ⟨node, hnode, -⟩ := Except.bind_eq_ok_iff.mp hbody
        exact ⟨node, hnode⟩
  obtain ⟨node, hread⟩ := hread
  have hdir := TreeOf.dirAt_of_walkNode h (getParentNode_eq_ok_iff.mp hread)
  exact ⟨isDirectory_of_dirAt hdir List.prefix_rfl,
    fun above hpre _ => isDirectory_of_dirAt hdir hpre⟩

theorem dirsAbove_of_cat {p : AbsolutePath} {data : Bytes} (hcat : state.cat p.path = .ok data) :
    DirsAbove state p.parts.names := by
  have hclean : cleanPath p.path = .ok p.parts := rfl
  unfold MountState.cat cat at hcat
  rw [hclean] at hcat
  obtain ⟨cleaned, hcleaned, hbody⟩ := Except.bind_eq_ok_iff.mp hcat
  cases hcleaned
  obtain ⟨split, hsplit, hrest⟩ := Except.bind_eq_ok_iff.mp hbody
  cases split with
  | none => contradiction
  | some split =>
      obtain ⟨parent, name⟩ := split
      obtain ⟨parentNode, hread, -⟩ := Except.bind_eq_ok_iff.mp hrest
      exact dirsAbove_of_parent h (parentAndName_eq_some_iff.mp hsplit) hread

omit h in
theorem dirsAbove_of_mkdir [LawfulPrimitives] {p : AbsolutePath} (hup : .parentDir ∉ p.parts)
    (hrun : (mkdir p.path).run state = .ok () state') : DirsAbove state' p.parts.names := by
  obtain ⟨names, hnames⟩ := p.wellFormed.exists_names hup
  have hpath : p.path = absPath names := by
    rw [AbsolutePath.path, hnames]
    rfl
  have hparts : p.parts.names = names := by
    rw [hnames, Path.names, map_toName_relPath]
  rw [hpath] at hrun
  rw [hparts]
  rcases List.eq_nil_or_concat names with rfl | ⟨parents, name, rfl⟩
  · contradiction
  rw [List.concat_eq_append] at hrun ⊢
  rcases mkdir_spec parents name state with ⟨-, path, hfail⟩ | ⟨-, -, error, world', hfail, -⟩ |
    ⟨final, hok, hmade, -⟩
  · rw [hrun] at hfail
    contradiction
  · rw [hrun] at hfail
    contradiction
  · rw [hrun] at hok
    cases hok
    obtain ⟨newLink, -, -, hupdated⟩ := hmade.made
    intro above hpre hne
    by_cases habove : above = []
    · exact Or.inl habove
    · exact Or.inr (hupdated.grafted.above above habove hpre hne)

theorem MountOf.onlyDirsTraversed [LawfulPrimitives] : OnlyDirsTraversed state where
  get := by
    intro p link hget
    obtain ⟨parent, name, node, hparts, hread⟩ := parts_of_get hget
    exact dirsAbove_of_parent h hparts hread
  cat := fun _ _ hcat => dirsAbove_of_cat h hcat
  ls := fun _ _ hls => dirsAbove_of_ls h hls
  rm := by
    intro p state' hrun
    obtain ⟨parent, name, node, hparts, hread⟩ := parts_of_rm hrun
    exact dirsAbove_of_parent h hparts hread
  mkdir := fun _ _ hup hrun => dirsAbove_of_mkdir hup hrun

end

/-! ## Runs -/

/-- The bytes that are added are no node. -/
def AddsNoNodeBytes : MountState → MountAction → Prop
  | _, .add _ data => P.decodeNode data = none
  | _, _ => True

/-- The tree is without such files, and the shares of the mount are filed under their keys. -/
structure NoNodeMount (state : MountState) : Prop where
  tree : MountOf NoNode state
  filed : state.inner.manifest.Filed

/-- A version without such files is stored under the link. -/
def NoNodeVersion (world : World) (link : Link) : Prop :=
  ∃ version : Version, version.link = link ∧ version.Stored world.blobs ∧
    TreeOf NoNode world.blobs version.pins version.entry ∧ version.manifest.Filed

section

variable [LawfulPrimitives] {state state' : MountState}

omit [LawfulPrimitives] in
theorem NoNodeVersion.grows {world world' : World} {link : Link} (h : NoNodeVersion world link)
    (hgrows : Grows world world') : NoNodeVersion world' link := by
  obtain ⟨version, hversion, hstored, htree, hfiled⟩ := h
  exact ⟨version, hversion, hstored.grows hgrows,
    htree.grows noNodeRules hgrows (fun _ hhash => hhash), hfiled⟩

omit [LawfulPrimitives] in
theorem NoNodeMount.grows {world world' : World} {inner : MountInner}
    (h : NoNodeMount ⟨world, inner⟩) (hgrows : Grows world world') :
    NoNodeMount ⟨world', inner⟩ :=
  ⟨TreeOf.grows noNodeRules h.tree hgrows (fun _ hhash => hhash), h.filed⟩

omit [LawfulPrimitives] in
/-- An operation stays at the version that the mount was at. -/
theorem noNode_of_atVersion (hat : AtVersion state state') (h : NoNodeMount state)
    (hlink : NoNodeVersion state.world state.inner.link) (htree : MountOf NoNode state') :
    NoNodeMount state' ∧ NoNodeVersion state'.world state'.inner.link := by
  refine ⟨⟨htree, filed_of_atVersion hat h.filed⟩, ?_⟩
  obtain ⟨opsLog, hedited⟩ := hat
  rw [hedited.link]
  exact hlink.grows hedited.grows

theorem noNode_of_save {publish : Bool} (h : NoNodeMount state) {result : Link × Link × ℕ}
    (hrun : (save publish).run state = .ok result state') :
    NoNodeMount state' ∧ NoNodeVersion state'.world state'.inner.link := by
  have hgrows : Grows state.world state'.world := (mountGrows_save publish).of_ok hrun
  obtain ⟨version, hstored, hsaves, -, hinner⟩ := stored_of_save h.filed hrun
  have htree : ∀ pins, (∀ hash ∈ state.inner.pins, hash ∈ pins) →
      TreeOf NoNode state'.world.blobs pins state.inner.entry :=
    fun pins hpins => TreeOf.grows noNodeRules h.tree hgrows hpins
  have hpins : ∀ hash ∈ state.inner.pins, hash ∈ version.pins := by
    intro hash hhash
    rw [hsaves.pins, Pins.mem_extend, Pins.mem_extend]
    exact Or.inl (Or.inl hhash)
  rw [hinner]
  refine ⟨⟨?_, ?_⟩, version, rfl, hstored, ?_, hsaves.filed⟩
  · unfold MountOf
    rw [hinner]
    exact htree _ (fun _ hhash => hhash)
  · rw [hinner]
    exact hsaves.filed
  · rw [hsaves.entry]
    exact htree _ hpins

theorem noNodeInvariant : SystemInvariant AddsNoNodeBytes NoNodeMount NoNodeVersion where
  mount_grows := fun hgrows h => h.grows hgrows
  link_grows := fun hgrows h => h.grows hgrows
  init := by
    intro id name owner world inner world' hrun
    obtain ⟨version, hstored, rfl, hentry, -, -, -, -, hfiled, -⟩ := stored_of_init hrun
    have htree : TreeOf NoNode world'.blobs version.pins version.entry := by
      rw [hentry]
      exact treeOf_default _ _ _
    exact ⟨⟨htree, hfiled⟩, version, rfl, hstored, htree, hfiled⟩
  load := by
    rintro world link secretKey inner ⟨version, rfl, hstored, htree, hfiled⟩ hload
    rw [hstored.eq_mount_of_load hload]
    exact ⟨htree, hfiled⟩
  operate := by
    intro state action hallowed h hlink
    have hdirs : ∀ path, ParentThroughDirs state.world.blobs state.inner.entry path :=
      fun path cleaned parentPath _ _ => TreeOf.throughDirs h.tree parentPath
    have hedit : ∀ {α : Type} {x : MountM α}, Records x → MountOf NoNode (x.run state).state →
        NoNodeMount (x.run state).state ∧
          NoNodeVersion (x.run state).state.world (x.run state).state.inner.link :=
      fun hrecords htree => noNode_of_atVersion (hrecords.atVersion state) h hlink htree
    cases action with
    | add path data =>
        apply hedit (records_add path data)
        apply mountOf_add_of_file noNodeRules h.tree (namedBy_true path)
        intro blobs pins name link secret mime blob _ _ hblob hdata _
        exact ⟨blob, data, hblob, hdata, hallowed⟩
    | rm path =>
        exact hedit (records_rm path)
          (mountOf_rm noNodeRules h.tree (namedBy_true path) (hdirs path))
    | mkdir path =>
        exact hedit (records_mkdir path) (mountOf_mkdir noNodeRules h.tree (namedBy_true path))
    | mv source target =>
        exact hedit (records_mv source target)
          (mountOf_mv noNodeRules h.tree (namedBy_true source) (namedBy_true target)
            (hdirs source))
    | addOwner peer =>
        rcases addOwner_cases peer state with ⟨fault, world', hgrows, hrun⟩ |
          ⟨share, world', -, hgrows, hrun⟩
        · rw [MountAction.run, hrun]
          exact ⟨h.grows hgrows, hlink.grows hgrows⟩
        · rw [MountAction.run, hrun]
          exact ⟨⟨(h.grows hgrows).tree, h.filed.addShare _⟩, hlink.grows hgrows⟩
    | addMirror peer => exact ⟨⟨h.tree, h.filed.addShare _⟩, hlink⟩
    | save publish =>
        rcases saveAction_cases publish state with ⟨fault, world', hgrows, hrun⟩ |
          ⟨result, state', hsave, hrun⟩
        · rw [hrun]
          exact ⟨h.grows hgrows, hlink.grows hgrows⟩
        · rw [hrun]
          exact noNode_of_save h hsave
  mergeFrom := by
    intro state fuel incoming resolver h hlink
    have happly : ∀ resolved, NoNodeMount ((applyAll resolved).run state).state ∧
        NoNodeVersion ((applyAll resolved).run state).state.world
          ((applyAll resolved).run state).state.inner.link :=
      fun resolved => noNode_of_atVersion (atVersion_applyAll resolved state) h hlink
        (mountOf_applyAll noNodeRules h.tree resolved)
    rcases @mergeFrom_keeps _ _ (fun state' => NoNodeMount state' ∧
        NoNodeVersion state'.world state'.inner.link) state ⟨h, hlink⟩ happly
        (fun _ _ h => ⟨⟨h.1.tree, h.1.filed⟩, h.2⟩)
        (fun _ _ h hgrows => ⟨h.1.grows hgrows, h.2.grows hgrows⟩)
        fuel incoming resolver with hkept | ⟨middle, result, ⟨hmount, -⟩, hsave⟩
    · exact hkept
    · exact noNode_of_save hmount hsave

/-- After any run that adds no file with the bytes of a node, every mount goes through
directories only. -/
theorem only_directories_traversed (world : World) (actions : List SystemAction)
    (hfiles : AlongRun MountSystem.step (fun system => system.Allows AddsNoNodeBytes)
      (MountSystem.start world) actions) :
    ∀ inner ∈ ((MountSystem.start world).run actions).mounts,
      OnlyDirsTraversed ⟨((MountSystem.start world).run actions).world, inner⟩ := by
  intro inner hinner
  have hholds := MountSystem.holds_run noNodeInvariant world hfiles
  exact MountOf.onlyDirsTraversed (hholds.mounts inner hinner).tree

/-- Any other file is a directory to `ls`. -/
theorem added_node_listed {names : List Name} {data : Bytes} {node : Node}
    (hnode : P.decodeNode data = some node)
    (hrun : (add (absPath names) data).run state = .ok () state') :
    (∃ items, state'.ls (absPath names) = .ok items) ∧ ¬ IsDirectory state' names := by
  obtain ⟨link, secret, world', blob, hgrows, hblob, hdata, hadded⟩ := add_spec names data state
  rcases hadded with ⟨-, fault, hfail⟩ | ⟨parents, name, rfl, ⟨-, fault, hfail⟩ |
    ⟨-, final, hok, hgrows', hupdated⟩⟩
  · rw [hrun] at hfail
    contradiction
  · rw [hrun] at hfail
    contradiction
  rw [hrun] at hok
  cases hok
  constructor
  · have hload : loadNode state'.world.blobs
        (.data link secret (P.mimeFromPath (absPath (parents ++ [name])))) = some node := by
      simp [loadNode, getNodeFromBlobs, NodeLink.link, NodeLink.secret,
        hgrows'.blobs _ _ hblob, hdata, hnode, Except.toOption]
    have hwalk : walkNode state'.world.blobs state'.inner.entry (parents ++ [name]) =
        some node := by
      rw [walkNode_of_findLink (by simp), hupdated.findLink_self]
      exact hload
    rcases ls_absPath state'.world.blobs state'.inner.entry (parents ++ [name]) with
      ⟨found, -, hls⟩ | ⟨hnone, -⟩
    · exact ⟨_, hls⟩
    · rw [hwalk] at hnone
      contradiction
  · have hself := hupdated.grafted.below []
    rw [List.append_nil] at hself
    rintro (hnil | ⟨found, hfound, hdir⟩)
    · simp at hnil
    · rw [hself] at hfound
      cases hfound
      contradiction

end

end

namespace Reference

/-- The node of `/f` is a file. -/
def nodeAsFile : List SystemAction :=
  [.init ⟨7⟩ "docs".toList alice,
    .operate 0 (.add (absPath ["f".toList]) (nodeCode.encode strayNode))]

set_option maxRecDepth 100000 in
/-- An entry of the node is found below the file. -/
theorem file_traversed :
    ∃ inner ∈ ((MountSystem.start emptyWorld).run nodeAsFile).mounts,
      ¬ OnlyDirsTraversed ⟨((MountSystem.start emptyWorld).run nodeAsFile).world, inner⟩ := by
  have hfacts : ((MountSystem.start emptyWorld).run nodeAsFile).mounts[0]?.any (fun inner =>
      let blobs := ((MountSystem.start emptyWorld).run nodeAsFile).world.blobs
      (get blobs inner.entry (AbsolutePath.parse "/f/x".toList).path).toOption.isSome &&
        (linkAt blobs inner.entry ["f".toList]).all (fun link => !link.isDir)) = true := by
    decide +kernel
  have habove : ["f".toList] <+: (AbsolutePath.parse "/f/x".toList).parts.names ∧
      ["f".toList] ≠ (AbsolutePath.parse "/f/x".toList).parts.names := by
    decide
  generalize AbsolutePath.parse "/f/x".toList = p at *
  generalize (MountSystem.start emptyWorld).run nodeAsFile = system at *
  obtain ⟨inner, hinner, hfacts⟩ := (Option.any_eq_true _ _).mp hfacts
  obtain ⟨hget, hfile⟩ := (Bool.and_eq_true _ _).mp hfacts
  obtain ⟨link, hlink⟩ := Option.isSome_iff_exists.mp hget
  refine ⟨inner, List.mem_of_getElem? hinner, ?_⟩
  intro honly
  have hdirs : DirsAbove ⟨system.world, inner⟩ p.parts.names :=
    honly.get p link (Except.eq_ok_of_toOption hlink)
  rcases hdirs ["f".toList] habove.1 habove.2 with hnil | ⟨found, hfound, hdir⟩
  · contradiction
  · rw [show linkAt system.world.blobs inner.entry ["f".toList] = some found from hfound] at hfile
    simp [hdir] at hfile

/-- The mount that moved a directory. -/
theorem movedDirectory_traversed :
    ((MountSystem.start emptyWorld).run movedDirectory).mounts ≠ [] ∧
    ∀ inner ∈ ((MountSystem.start emptyWorld).run movedDirectory).mounts,
      OnlyDirsTraversed ⟨((MountSystem.start emptyWorld).run movedDirectory).world, inner⟩ := by
  have hnode : primitives.decodeNode [1] = none := rfl
  constructor
  · decide +kernel
  · apply only_directories_traversed
    exact ⟨trivial, fun _ _ => trivial, fun _ _ => hnode, fun _ _ => trivial,
      fun _ _ => trivial, fun _ _ => trivial, trivial⟩

end Reference

end JaxFs

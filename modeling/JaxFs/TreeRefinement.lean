import JaxFs.FileTree
import JaxFs.MountApply
import JaxFs.MountMv
import JaxFs.Runs
import JaxFs.StoredVersion

/-!
# The file tree of a mount

The encrypted nodes below the entry of a mount, seen as a file tree: a path leads to a
directory or to a file with its bytes and its MIME type.  The view is that of the reads
as long as the nodes are intact and no file passes for a node.  Under it every operation
on a mount is the operation on file trees of the same name, along every run from a new
bucket; only a failed `mv` may leave the tree without its source.
-/

namespace JaxFs

/-- What a file is to a reader. -/
structure File where
  data : Bytes
  mime : Option Name

section

variable [P : Primitives]

/-! ## The view of the nodes -/

def linkEntry (blobs : Blobs) : NodeLink → Option (TreeEntry File)
  | .dir _ _ => some .dir
  | .data link secret mime =>
      ((blobs link.hash).bind secret.decrypt).map (fun data => .file ⟨data, mime⟩)

/-- What is at a path below a node. -/
def entryAt (blobs : Blobs) (node : Node) : List Name → Option (TreeEntry File)
  | [] => some .dir
  | first :: rest => (findLink blobs node (first :: rest)).bind (linkEntry blobs)

/-- What is at a path from a link on. -/
def branchAt (blobs : Blobs) (link : NodeLink) : List Name → Option (TreeEntry File)
  | [] => linkEntry blobs link
  | first :: rest =>
      (loadNode blobs link).bind (fun child => entryAt blobs child (first :: rest))

/-- A directory has its node, and a file its bytes, which are no node. -/
def Intact (blobs : Blobs) : NodeLink → Prop
  | .dir link secret => (loadNode blobs (.dir link secret)).isSome = true
  | .data link secret _ => ∃ blob data, blobs link.hash = some blob ∧
      secret.decrypt blob = some data ∧ P.decodeNode data = none

def IntactTree (blobs : Blobs) (node : Node) : Prop :=
  ∀ names link, findLink blobs node names = some link → Intact blobs link

section

variable {world world' : World} {blobs : Blobs} {node : Node} {link : NodeLink}

theorem Intact.stored (h : Intact blobs link) : ∃ blob, blobs link.link.hash = some blob := by
  cases link with
  | dir link secret =>
      obtain ⟨child, hload⟩ := Option.isSome_iff_exists.mp h
      exact stored_of_loadNode hload
  | data link secret mime =>
      obtain ⟨blob, data, hblob, -, -⟩ := h
      exact ⟨blob, hblob⟩

theorem IntactTree.complete (h : IntactTree blobs node) : Complete blobs node :=
  fun names link hlink => (h names link hlink).stored

theorem Intact.grows (h : Intact world.blobs link) (hgrows : Grows world world') :
    Intact world'.blobs link := by
  cases link with
  | dir link secret =>
      obtain ⟨child, hload⟩ := Option.isSome_iff_exists.mp h
      rw [Intact, hgrows.loadNode hload]
      rfl
  | data link secret mime =>
      obtain ⟨blob, data, hblob, hdata, hnode⟩ := h
      exact ⟨blob, data, hgrows.blobs _ _ hblob, hdata, hnode⟩

/-- Only directories lead on. -/
theorem Intact.isDir_of_loadNode (h : Intact blobs link) {child : Node}
    (hload : loadNode blobs link = some child) : link.isDir = true := by
  cases link with
  | dir link secret => rfl
  | data link secret mime =>
      obtain ⟨blob, data, hblob, hdata, hnode⟩ := h
      have hread := getNodeFromBlobs_of_loadNode hload
      have hfail : getNodeFromBlobs blobs (.data link secret mime) =
          .error (.error .codec) := by
        simp [getNodeFromBlobs, NodeLink.link, NodeLink.secret, hblob, hdata, hnode]
      rw [hfail] at hread
      contradiction

theorem Intact.isLoadableDir_iff (h : Intact blobs link) :
    IsLoadableDir blobs link ↔ link.isDir = true := by
  constructor
  · exact fun hdir => hdir.1
  · intro hdir
    cases link with
    | dir link secret => exact ⟨rfl, h⟩
    | data link secret mime => contradiction

theorem intact_of_isLoadableDir (h : IsLoadableDir blobs link) : Intact blobs link := by
  cases link with
  | dir link secret => exact h.2
  | data link secret mime => exact absurd h.1 (by simp [NodeLink.isDir])

theorem linkEntry_eq_dir_iff : linkEntry blobs link = some .dir ↔ link.isDir = true := by
  cases link with
  | dir link secret => simp [linkEntry, NodeLink.isDir]
  | data link secret mime =>
      rw [linkEntry]
      cases (blobs link.hash).bind secret.decrypt with
      | none => simp [NodeLink.isDir]
      | some data => simp [NodeLink.isDir]

theorem Intact.linkEntry (h : Intact blobs link) :
    ∃ found, linkEntry blobs link = some found := by
  cases link with
  | dir link secret => exact ⟨.dir, rfl⟩
  | data link secret mime =>
      obtain ⟨blob, data, hblob, hdata, -⟩ := h
      exact ⟨.file ⟨data, mime⟩, by simp [JaxFs.linkEntry, hblob, hdata]⟩

theorem Intact.linkEntry_eq (h : Intact world.blobs link) (hgrows : Grows world world') :
    JaxFs.linkEntry world'.blobs link = JaxFs.linkEntry world.blobs link := by
  cases link with
  | dir link secret => rfl
  | data link secret mime =>
      obtain ⟨blob, data, hblob, -, -⟩ := h
      simp [JaxFs.linkEntry, hblob, hgrows.blobs _ _ hblob]

theorem entryAt_of_ne_nil {names : List Name} (hnames : names ≠ []) :
    entryAt blobs node names =
      (findLink blobs node names).bind (JaxFs.linkEntry blobs) := by
  cases names with
  | nil => contradiction
  | cons first rest => rfl

theorem entryAt_of_findLink {names : List Name} (h : findLink blobs node names = some link) :
    entryAt blobs node names = JaxFs.linkEntry blobs link := by
  rw [entryAt_of_ne_nil (findLink_ne_nil h), h, Option.bind_some]

theorem entryAt_of_eq_none {names : List Name} (hnames : names ≠ [])
    (h : findLink blobs node names = none) : entryAt blobs node names = none := by
  rw [entryAt_of_ne_nil hnames, h, Option.bind_none]

theorem entryAt_congr {blobs' : Blobs} {node' : Node} {names : List Name}
    (h : findLink blobs' node' names = findLink blobs node names)
    (hentry : ∀ link, findLink blobs node names = some link →
      JaxFs.linkEntry blobs' link = JaxFs.linkEntry blobs link) :
    entryAt blobs' node' names = entryAt blobs node names := by
  cases names with
  | nil => rfl
  | cons first rest =>
      rw [entryAt, entryAt, h]
      cases hlink : findLink blobs node (first :: rest) with
      | none => rfl
      | some link => exact hentry link hlink

theorem IntactTree.grows (h : IntactTree world.blobs node) (hgrows : Grows world world') :
    IntactTree world'.blobs node := by
  intro names link hlink
  rw [h.complete.findLink_eq hgrows] at hlink
  exact (h names link hlink).grows hgrows

theorem IntactTree.entryAt_eq (h : IntactTree world.blobs node) (hgrows : Grows world world')
    (names : List Name) : entryAt world'.blobs node names = entryAt world.blobs node names := by
  apply entryAt_congr (h.complete.findLink_eq hgrows names)
  exact fun link hlink => (h names link hlink).linkEntry_eq hgrows

theorem IntactTree.entryAt_ne_none_iff (h : IntactTree blobs node) {names : List Name}
    (hnames : names ≠ []) :
    entryAt blobs node names ≠ none ↔ ∃ link, findLink blobs node names = some link := by
  cases hlink : findLink blobs node names with
  | none => simp [entryAt_of_eq_none hnames hlink]
  | some link =>
      obtain ⟨found, hfound⟩ := (h names link hlink).linkEntry
      simp [entryAt_of_findLink hlink, hfound]

/-- The tree below a node that is reached. -/
theorem IntactTree.of_walkNode (h : IntactTree blobs node) {names : List Name} {child : Node}
    (hwalk : walkNode blobs node names = some child) : IntactTree blobs child := by
  intro rest link hlink
  apply h (names ++ rest) link
  rw [findLink_append (findLink_ne_nil hlink), hwalk]
  exact hlink

/-- Links on the way to an intact link are directories. -/
theorem IntactTree.isDir_of_prefix (h : IntactTree blobs node) {parents ancestor : List Name}
    {parent : Node} (hparent : walkNode blobs node parents = some parent)
    (hpre : ancestor <+: parents) (hfound : findLink blobs node ancestor = some link) :
    link.isDir = true := by
  have hload := loadNode_of_walkNode hparent hpre hfound
  obtain ⟨child, hchild⟩ := Option.isSome_iff_exists.mp hload
  exact (h ancestor link hfound).isDir_of_loadNode hchild

end

/-! ## A link in a new place -/

/-- The link and the nodes behind it are intact. -/
structure IntactBranch (blobs : Blobs) (link : NodeLink) : Prop where
  here : Intact blobs link
  below : ∀ child, loadNode blobs link = some child → IntactTree blobs child

section

variable {world world' : World} {blobs : Blobs} {node : Node} {link : NodeLink}

theorem IntactTree.branch (h : IntactTree blobs node) {names : List Name}
    (hlink : findLink blobs node names = some link) : IntactBranch blobs link := by
  refine ⟨h names link hlink, ?_⟩
  intro child hload
  apply h.of_walkNode
  rw [walkNode_of_findLink (findLink_ne_nil hlink), hlink]
  exact hload

/-- The branch behind a link is what lies below its place. -/
theorem branchAt_of_findLink {names : List Name} (hlink : findLink blobs node names = some link)
    (rest : List Name) : branchAt blobs link rest = entryAt blobs node (names ++ rest) := by
  cases rest with
  | nil =>
      rw [List.append_nil, entryAt_of_findLink hlink]
      rfl
  | cons first rest =>
      rw [branchAt, entryAt_of_ne_nil (by simp), findLink_append (by simp),
        walkNode_of_findLink (findLink_ne_nil hlink), hlink, Option.bind_some]
      cases loadNode blobs link with
      | none => rfl
      | some child => rfl

theorem Intact.loadNode_eq (h : Intact world.blobs link) (hgrows : Grows world world') :
    loadNode world'.blobs link = loadNode world.blobs link := by
  obtain ⟨blob, hblob⟩ := h.stored
  rw [loadNode, hgrows.getNodeFromBlobs hblob]
  rfl

theorem IntactBranch.grows (h : IntactBranch world.blobs link) (hgrows : Grows world world') :
    IntactBranch world'.blobs link := by
  refine ⟨h.here.grows hgrows, ?_⟩
  intro child hload
  rw [h.here.loadNode_eq hgrows] at hload
  exact (h.below child hload).grows hgrows

theorem IntactBranch.branchAt_eq (h : IntactBranch world.blobs link)
    (hgrows : Grows world world') (rest : List Name) :
    branchAt world'.blobs link rest = branchAt world.blobs link rest := by
  cases rest with
  | nil => exact h.here.linkEntry_eq hgrows
  | cons first rest =>
      rw [branchAt, branchAt, h.here.loadNode_eq hgrows]
      cases hload : loadNode world.blobs link with
      | none => rfl
      | some child =>
          rw [Option.bind_some, Option.bind_some]
          exact (h.below child hload).entryAt_eq hgrows _

end

section

variable {world world' : World} {entry entry' : Node} {newLink : NodeLink}
  {parents : List Name} {name : Name}

theorem entryAt_updated (hintact : IntactTree world.blobs entry) (hgrows : Grows world world')
    (hupdated : Updated world'.blobs newLink parents name entry entry') (path : List Name) :
    entryAt world'.blobs entry' path =
      if parents ++ [name] <+: path then
        branchAt world'.blobs newLink (path.drop (parents ++ [name]).length)
      else if path <+: parents ++ [name] then some .dir
      else entryAt world.blobs entry path := by
  by_cases hbelow : parents ++ [name] <+: path
  · rw [if_pos hbelow]
    obtain ⟨rest, rfl⟩ := hbelow
    rw [List.drop_left]
    cases rest with
    | nil =>
        rw [List.append_nil, branchAt]
        exact entryAt_of_findLink hupdated.findLink_self
    | cons first rest =>
        rw [entryAt_of_ne_nil (by simp), hupdated.findLink_below (by simp), branchAt]
        cases loadNode world'.blobs newLink with
        | none => rfl
        | some child => rfl
  · rw [if_neg hbelow]
    by_cases habove : path <+: parents ++ [name]
    · rw [if_pos habove]
      rcases List.prefix_concat_iff.mp (by simpa using habove) with heq | hproper
      · exact absurd (by rw [heq]) hbelow
      · cases path with
        | nil => rfl
        | cons first rest =>
            obtain ⟨link, hlink, hdir⟩ := hupdated.isLoadableDir_of_prefix (by simp) hproper
            rw [entryAt_of_findLink hlink]
            exact linkEntry_eq_dir_iff.mpr hdir.1
    · rw [if_neg habove, ← hintact.entryAt_eq hgrows]
      apply entryAt_congr (hupdated.findLink_apart habove hbelow)
      exact fun _ _ => rfl

theorem IntactTree.updated (hintact : IntactTree world.blobs entry)
    (hgrows : Grows world world')
    (hupdated : Updated world'.blobs newLink parents name entry entry')
    (hnew : IntactBranch world'.blobs newLink) : IntactTree world'.blobs entry' := by
  intro path link hlink
  by_cases hbelow : parents ++ [name] <+: path
  · obtain ⟨rest, rfl⟩ := hbelow
    by_cases hrest : rest = []
    · rw [hrest, List.append_nil, hupdated.findLink_self] at hlink
      cases hlink
      exact hnew.here
    · rw [hupdated.findLink_below hrest] at hlink
      obtain ⟨child, hload, hchild⟩ := Option.bind_eq_some_iff.mp hlink
      exact hnew.below child hload rest link hchild
  · by_cases habove : path <+: parents ++ [name]
    · rcases List.prefix_concat_iff.mp (by simpa using habove) with heq | hproper
      · exact absurd (by rw [heq]) hbelow
      · obtain ⟨found, hfound, hdir⟩ :=
          hupdated.isLoadableDir_of_prefix (findLink_ne_nil hlink) hproper
        rw [hlink] at hfound
        cases hfound
        exact intact_of_isLoadableDir hdir
    · rw [hupdated.findLink_apart habove hbelow,
        hintact.complete.findLink_eq hgrows] at hlink
      exact (hintact path link hlink).grows hgrows

/-! ## A link taken away -/

variable {parentNode : Node}

theorem findLink_removed {blobs : Blobs}
    (hreplaced : NodeReplaced blobs parents (parentNode.del name).2 entry entry')
    (rest : List Name) : findLink blobs entry' (parents ++ [name] ++ rest) = none := by
  rw [List.append_assoc, findLink_append (by simp), hreplaced.at_path, Option.bind_some]
  cases rest with
  | nil => simp [findLink, Node.getLink_del]
  | cons first rest =>
      rw [List.singleton_append, findLink_cons (by simp), Node.getLink_del, if_pos rfl]
      rfl

theorem entryAt_removed (hintact : IntactTree world.blobs entry) (hgrows : Grows world world')
    (hparent : walkNode world.blobs entry parents = some parentNode)
    (hreplaced : NodeReplaced world'.blobs parents (parentNode.del name).2 entry entry')
    (path : List Name) :
    entryAt world'.blobs entry' path =
      if parents ++ [name] <+: path then none else entryAt world.blobs entry path := by
  by_cases hbelow : parents ++ [name] <+: path
  · rw [if_pos hbelow]
    obtain ⟨rest, rfl⟩ := hbelow
    exact entryAt_of_eq_none (by simp) (findLink_removed hreplaced rest)
  · rw [if_neg hbelow]
    by_cases habove : path <+: parents
    · cases path with
      | nil => rfl
      | cons first rest =>
          obtain ⟨link, hlink, hdir⟩ := hreplaced.above _ (by simp) habove
          obtain ⟨rest', hrest'⟩ := habove
          rw [← hrest', walkNode_append] at hparent
          obtain ⟨child, hchild, -⟩ := Option.bind_eq_some_iff.mp hparent
          rw [walkNode_of_findLink (by simp)] at hchild
          obtain ⟨old, hold, hload⟩ := Option.bind_eq_some_iff.mp hchild
          rw [entryAt_of_findLink hlink, entryAt_of_findLink hold,
            linkEntry_eq_dir_iff.mpr hdir.1,
            linkEntry_eq_dir_iff.mpr ((hintact _ _ hold).isDir_of_loadNode hload)]
    · apply entryAt_congr
      · exact findLink_of_removed (hintact.complete.sameBlobs hgrows) hgrows hparent hreplaced
          habove hbelow
      · exact fun link hlink => (hintact path link hlink).linkEntry_eq hgrows

theorem IntactTree.removed (hintact : IntactTree world.blobs entry)
    (hgrows : Grows world world')
    (hparent : walkNode world.blobs entry parents = some parentNode)
    (hreplaced : NodeReplaced world'.blobs parents (parentNode.del name).2 entry entry') :
    IntactTree world'.blobs entry' := by
  intro path link hlink
  by_cases habove : path <+: parents
  · obtain ⟨found, hfound, hdir⟩ := hreplaced.above path (findLink_ne_nil hlink) habove
    rw [hlink] at hfound
    cases hfound
    exact intact_of_isLoadableDir hdir
  · have hbelow : ¬ parents ++ [name] <+: path := by
      rintro ⟨rest, rfl⟩
      rw [findLink_removed hreplaced] at hlink
      contradiction
    rw [findLink_of_removed (hintact.complete.sameBlobs hgrows) hgrows hparent hreplaced habove
      hbelow] at hlink
    exact (hintact path link hlink).grows hgrows

end

/-! ## Mounts and trees -/

/-- The nodes below the entry of the mount are the file tree. -/
structure Represents (state : MountState) (tree : FileTree Name File) : Prop where
  intact : IntactTree state.world.blobs state.inner.entry
  entry : ∀ names, entryAt state.world.blobs state.inner.entry names = tree.entry names

section

variable {state state' : MountState} {tree : FileTree Name File} {parents : List Name}
  {name : Name}

theorem Represents.grows (h : Represents state tree) (hgrows : Grows state.world state'.world)
    (hentry : state'.inner.entry = state.inner.entry) : Represents state' tree := by
  constructor
  · rw [hentry]
    exact h.intact.grows hgrows
  · intro names
    rw [hentry, h.intact.entryAt_eq hgrows]
    exact h.entry names

theorem Represents.found_iff (h : Represents state tree) {names : List Name}
    (hnames : names ≠ []) :
    tree.entry names ≠ none ↔
      ∃ link, findLink state.world.blobs state.inner.entry names = some link := by
  rw [← h.entry, h.intact.entryAt_ne_none_iff hnames]

theorem Represents.file_iff (h : Represents state tree) {names : List Name} :
    (∃ contents, tree.entry names = some (.file contents)) ↔
      ∃ link, findLink state.world.blobs state.inner.entry names = some link ∧
        link.isDir = false := by
  rw [← h.entry]
  constructor
  · intro ⟨contents, hcontents⟩
    have hnames : names ≠ [] := by
      rintro rfl
      cases hcontents
    have hsome := (h.intact.entryAt_ne_none_iff hnames).mp (by simp [hcontents])
    obtain ⟨link, hlink⟩ := hsome
    refine ⟨link, hlink, ?_⟩
    rw [entryAt_of_findLink hlink] at hcontents
    cases hdir : link.isDir with
    | false => rfl
    | true =>
        rw [linkEntry_eq_dir_iff.mpr hdir] at hcontents
        cases hcontents
  · intro ⟨link, hlink, hfile⟩
    obtain ⟨found, hfound⟩ := (h.intact names link hlink).linkEntry
    rw [entryAt_of_findLink hlink, hfound]
    cases found with
    | dir =>
        rw [linkEntry_eq_dir_iff.mp hfound] at hfile
        contradiction
    | file contents => exact ⟨contents, rfl⟩

/-- The way to a path is obstructed when a file is on it. -/
theorem Represents.clear_iff (h : Represents state tree) :
    tree.Clear (parents ++ [name]) ↔
      ¬ Obstructed state.world.blobs state.inner.entry parents := by
  rw [not_obstructed_iff]
  constructor
  · intro hclear ancestor hpre link hlink
    rw [(h.intact ancestor link hlink).isLoadableDir_iff]
    cases hdir : link.isDir with
    | true => rfl
    | false =>
        obtain ⟨contents, hcontents⟩ := h.file_iff.mpr ⟨link, hlink, hdir⟩
        have hne : ancestor ≠ parents ++ [name] := by
          rintro rfl
          have hlength := hpre.length_le
          simp at hlength
        exact absurd hcontents
          (hclear ancestor (hpre.trans (List.prefix_append _ _)) hne contents)
  · intro hgood ancestor hpre hne contents hcontents
    obtain ⟨link, hlink, hfile⟩ := h.file_iff.mp ⟨contents, hcontents⟩
    have hproper : ancestor <+: parents := by
      rcases List.prefix_concat_iff.mp (by simpa using hpre) with heq | hproper
      · exact absurd (by simpa using heq) hne
      · exact hproper
    have hdir := (hgood ancestor hproper link hlink).1
    rw [hfile] at hdir
    contradiction

/-- A link in a new place is a branch in a new place. -/
theorem Represents.graft (h : Represents state tree) (hgrows : Grows state.world state'.world)
    {newLink : NodeLink} (hupdated : Updated state'.world.blobs newLink parents name
      state.inner.entry state'.inner.entry)
    (hnew : IntactBranch state'.world.blobs newLink) {branch : TreeBranch Name File}
    (hbranch : ∀ rest, branchAt state'.world.blobs newLink rest = branch.entry rest)
    (hpath : parents ++ [name] ≠ []) :
    Represents state' (tree.graft (parents ++ [name]) branch hpath) := by
  constructor
  · exact h.intact.updated hgrows hupdated hnew
  · intro names
    rw [entryAt_updated h.intact hgrows hupdated, hbranch, h.entry]
    rfl

theorem Represents.erase (h : Represents state tree) (hgrows : Grows state.world state'.world)
    {parentNode : Node}
    (hparent : walkNode state.world.blobs state.inner.entry parents = some parentNode)
    (hreplaced : NodeReplaced state'.world.blobs parents (parentNode.del name).2
      state.inner.entry state'.inner.entry) (hpath : parents ++ [name] ≠ []) :
    Represents state' (tree.erase (parents ++ [name]) hpath) := by
  constructor
  · exact h.intact.removed hgrows hparent hreplaced
  · intro names
    rw [entryAt_removed h.intact hgrows hparent hreplaced, h.entry]
    rfl

end

/-! ## The operations -/

inductive TreeAction where
  | add (names : List Name) (data : Bytes)
  | mkdir (names : List Name)
  | rm (names : List Name)
  | mv (source target : List Name)

namespace TreeAction

def perform : TreeAction → MountM Unit
  | .add names data => JaxFs.add (absPath names) data
  | .mkdir names => JaxFs.mkdir (absPath names)
  | .rm names => JaxFs.rm (absPath names)
  | .mv source target => JaxFs.mv (absPath source) (absPath target)

def isMv : TreeAction → Bool
  | .mv .. => true
  | _ => false

/-- The bytes of an added file are no node. -/
def AddsNoNode : TreeAction → Prop
  | .add _ data => P.decodeNode data = none
  | _ => True

/-- What the operation does to a file tree, when it can be done. -/
noncomputable def effect (tree : FileTree Name File) :
    TreeAction → Option (FileTree Name File)
  | .add names data => tree.write names ⟨data, P.mimeFromPath (absPath names)⟩
  | .mkdir names => tree.mkdir names
  | .rm names => tree.remove names
  | .mv source target => tree.move source target

open Classical in
/-- What is left when it cannot.  A `mv` that passes the checks has taken its source away
before it finds a file on the way to its target, or that its target is the root. -/
noncomputable def leftover (tree : FileTree Name File) : TreeAction → FileTree Name File
  | .mv source target =>
      if h : source ≠ [] ∧ ¬ source <+: target ∧ tree.entry source ≠ none ∧
          (target = [] ∨ tree.entry target = none) then
        tree.erase source h.1
      else tree
  | _ => tree

end TreeAction

/-- The operation succeeds when it can be done on the tree, and then does it.  Otherwise
it fails, and unless it is a `mv` the mount is not touched. -/
def Refines (action : TreeAction) (state : MountState) (tree : FileTree Name File) : Prop :=
  (∃ tree' state', action.effect tree = some tree' ∧ action.perform.run state = .ok () state' ∧
    Represents state' tree') ∨
  (action.effect tree = none ∧ ∃ fault state', action.perform.run state = .error fault state' ∧
    Represents state' (action.leftover tree) ∧
    (action.isMv = false → state'.inner = state.inner))

variable [LawfulPrimitives]

section

variable {state : MountState} {tree : FileTree Name File}

/-- A file is stored first, and then entered into the tree. -/
theorem add_spec (names : List Name) (data : Bytes) (state : MountState) :
    ∃ link secret world' blob, Grows state.world world' ∧
      world'.blobs link.hash = some blob ∧ secret.decrypt blob = some data ∧
      ((names = [] ∧ ∃ fault, (add (absPath names) data).run state =
          .error fault { state with world := world' }) ∨
        ∃ parents name, names = parents ++ [name] ∧
          ((Obstructed world'.blobs state.inner.entry parents ∧ ∃ fault,
              (add (absPath names) data).run state =
                .error fault { state with world := world' }) ∨
            (¬ Obstructed world'.blobs state.inner.entry parents ∧ ∃ state',
              (add (absPath names) data).run state = .ok () state' ∧
              Grows world' state'.world ∧
              Updated state'.world.blobs (.data link secret (P.mimeFromPath (absPath names)))
                parents name state.inner.entry state'.inner.entry))) := by
  obtain ⟨hash, secret, world', blob, hgrows, hblob, hdata, hrun⟩ := run_storeFile data state
  refine ⟨⟨ldRawCodec, hash⟩, secret, world', blob, hgrows, hblob, hdata, ?_⟩
  unfold add
  rw [hrun, run_getThe_bind]
  rcases List.eq_nil_or_concat names with rfl | ⟨parents, name, rfl⟩
  · left
    exact ⟨rfl, .panic, rfl⟩
  · right
    rw [List.concat_eq_append]
    refine ⟨parents, name, rfl, ?_⟩
    rcases setNodeLinkAtPath_spec state.inner.entry
      (.data ⟨ldRawCodec, hash⟩ secret (P.mimeFromPath (absPath (parents ++ [name])))) parents
      name world' with ⟨hobstructed, error, hset, -⟩ | ⟨hclear, root, rootSecret, hashes,
        world'', entry', hset, hgrows', hroot, hupdated⟩
    · left
      refine ⟨hobstructed, .error error, ?_⟩
      rw [EStateM.run_bind_of_error (run_onBlobs_of_error hset)]
    · right
      rw [EStateM.run_bind_of_ok (run_onBlobs_of_ok hset)]
      dsimp only
      rw [EStateM.run_bind_of_ok (run_reloadRoot hroot), cleanPath_absPath,
        EStateM.run_bind_of_ok (EStateM.run_ofExcept_ok _ _)]
      exact ⟨hclear, _, rfl, hgrows', hupdated⟩

omit [LawfulPrimitives] in
theorem intactBranch_file {blobs : Blobs} {link : Link} {secret : Secret} {mime : Option Name}
    {blob data : Bytes} (hblob : blobs link.hash = some blob)
    (hdata : secret.decrypt blob = some data) (hnode : P.decodeNode data = none) :
    IntactBranch blobs (.data link secret mime) := by
  have hintact : Intact blobs (.data link secret mime) := ⟨blob, data, hblob, hdata, hnode⟩
  refine ⟨hintact, ?_⟩
  intro child hload
  have hdir := hintact.isDir_of_loadNode hload
  contradiction

theorem refines_add (h : Represents state tree) {names : List Name} {data : Bytes}
    (hnode : P.decodeNode data = none) : Refines (.add names data) state tree := by
  obtain ⟨link, secret, world', blob, hgrows, hblob, hdata, hcases⟩ :=
    add_spec names data state
  have hlater : Represents { state with world := world' } tree := h.grows hgrows rfl
  rcases hcases with ⟨rfl, fault, hrun⟩ | ⟨parents, name, rfl, ⟨hobstructed, fault, hrun⟩ |
    ⟨hfree, state', hrun, hgrows', hupdated⟩⟩
  · right
    exact ⟨FileTree.write_eq_none (by simp), fault, _, hrun, hlater, fun _ => rfl⟩
  · right
    have hclear : ¬ tree.Clear (parents ++ [name]) := fun hclear =>
      hlater.clear_iff.mp hclear hobstructed
    exact ⟨FileTree.write_eq_none (by simp [hclear]), fault, _, hrun, hlater, fun _ => rfl⟩
  · left
    have hclear : tree.Clear (parents ++ [name]) := hlater.clear_iff.mpr hfree
    have hstored := hgrows'.blobs _ _ hblob
    have hnew := @intactBranch_file _ _ link secret (P.mimeFromPath (absPath (parents ++ [name])))
      _ _ hstored hdata hnode
    refine ⟨_, state', FileTree.write_of_clear (by simp) hclear, hrun, ?_⟩
    apply hlater.graft hgrows' hupdated hnew
    intro rest
    cases rest with
    | nil => simp [branchAt, linkEntry, hstored, hdata, TreeBranch.leaf]
    | cons first rest =>
        cases hload : loadNode state'.world.blobs (.data link secret
            (P.mimeFromPath (absPath (parents ++ [name])))) with
        | none =>
            rw [branchAt, hload]
            rfl
        | some child =>
            have hdir := hnew.here.isDir_of_loadNode hload
            contradiction

theorem refines_mkdir (h : Represents state tree) (names : List Name) :
    Refines (.mkdir names) state tree := by
  rcases List.eq_nil_or_concat names with rfl | ⟨parents, name, rfl⟩
  · right
    exact ⟨FileTree.mkdir_eq_none (by simp [tree.root]), _, state, rfl, h, fun _ => rfl⟩
  · rw [List.concat_eq_append]
    rcases mkdir_spec parents name state with ⟨hfound, path, hrun⟩ |
      ⟨hfree, hobstructed, error, world', hrun, -⟩ | ⟨state', hrun, hmade, -, -⟩
    · right
      have hentry := (h.found_iff (by simp)).mpr hfound
      exact ⟨FileTree.mkdir_eq_none (by simp [hentry]), _, state, hrun, h, fun _ => rfl⟩
    · right
      have hgrows : Grows state.world world' := (mountGrows_mkdir _).of_error hrun
      have hclear : ¬ tree.Clear (parents ++ [name]) := fun hclear =>
        h.clear_iff.mp hclear hobstructed
      exact ⟨FileTree.mkdir_eq_none (by simp [hclear]), _, _, hrun, h.grows hgrows rfl,
        fun _ => rfl⟩
    · left
      have hnone : tree.entry (parents ++ [name]) = none := by
        by_contra hsome
        obtain ⟨link, hlink⟩ := (h.found_iff (by simp)).mp hsome
        rw [hmade.free] at hlink
        contradiction
      have hclear : tree.Clear (parents ++ [name]) := by
        rw [h.clear_iff, ← h.intact.complete.obstructed_iff hmade.grows]
        exact hmade.clear
      obtain ⟨newLink, hdir, hempty, hupdated⟩ := hmade.made
      refine ⟨_, state', FileTree.mkdir_of_clear hnone hclear, hrun, ?_⟩
      apply h.graft hmade.grows hupdated
      · constructor
        · apply intact_of_isLoadableDir
          exact ⟨hdir, by simp [hempty]⟩
        · intro child hchild rest link hlink
          rw [hempty] at hchild
          cases hchild
          rw [findLink_default] at hlink
          contradiction
      · intro rest
        cases rest with
        | nil => exact linkEntry_eq_dir_iff.mpr hdir
        | cons first rest =>
            rw [branchAt, hempty, Option.bind_some]
            exact entryAt_of_eq_none (by simp) (findLink_default _ _)

omit [LawfulPrimitives] in
/-- A removal is refused with nothing changed, or it comes to the parent without the
entry. -/
theorem rm_cases (state : MountState) (names : List Name) :
    ((¬ ∃ link, findLink state.world.blobs state.inner.entry names = some link) ∧
      ∃ fault, (rm (absPath names)).run state = .error fault state) ∨
    ∃ parents name parentNode removed, names = parents ++ [name] ∧
      walkNode state.world.blobs state.inner.entry parents = some parentNode ∧
      parentNode.getLink name = some removed ∧
      (rm (absPath names)).run state = (do
        replaceParent state.inner.entry (relPath parents) (parentNode.del name).2
        modifyInner (fun inner =>
          inner.recordOp .remove (relPath names) none removed.isDir)).run state := by
  unfold rm
  rw [cleanPath_absPath, EStateM.run_bind_of_ok (EStateM.run_ofExcept_ok _ _)]
  rcases List.eq_nil_or_concat names with rfl | ⟨parents, name, rfl⟩
  · left
    exact ⟨by simp [findLink], _, rfl⟩
  rw [List.concat_eq_append, relPath_parent_append_singleton]
  dsimp only
  rw [run_getThe_bind, findLink_append_singleton]
  cases hread : getParentNode state.world.blobs state.inner.entry (relPath parents) with
  | error fault =>
      left
      rw [EStateM.run_bind_of_error (run_readBlobs_of_error hread)]
      have hnone : walkNode state.world.blobs state.inner.entry parents = none := by
        rw [getParentNode_relPath] at hread
        exact walkNode_eq_none_of_error hread
      exact ⟨by simp [hnone], fault, rfl⟩
  | ok parentNode =>
      rw [EStateM.run_bind_of_ok (run_readBlobs_of_ok hread),
        relPath_fileName_append_singleton]
      dsimp only
      have hparent : walkNode state.world.blobs state.inner.entry parents =
          some parentNode := by
        rw [getParentNode_relPath] at hread
        exact getNodeAtPathFrom_eq_ok_iff.mp hread
      cases hname : parentNode.getLink name with
      | none =>
          left
          have hdel : parentNode.del name = (none, (parentNode.del name).2) := by
            rw [← hname]
            rfl
          rw [hdel]
          exact ⟨by simp [hparent, hname], _, rfl⟩
      | some removed =>
          right
          have hdel : parentNode.del name = (some removed, (parentNode.del name).2) := by
            rw [← hname]
            rfl
          refine ⟨parents, name, parentNode, removed, rfl, hparent, hname, ?_⟩
          rw [hdel]

/-- An entry that is found in an intact tree can be taken out of it. -/
theorem Represents.removal (h : Represents state tree) {parents : List Name} {name : Name}
    {parentNode : Node}
    (hparent : walkNode state.world.blobs state.inner.entry parents = some parentNode) :
    ∃ state', (replaceParent state.inner.entry (relPath parents)
        (parentNode.del name).2).run state = .ok () state' ∧
      Grows state.world state'.world ∧
      Represents state' (tree.erase (parents ++ [name]) (by simp)) := by
  have hclear : ¬ Obstructed state.world.blobs state.inner.entry parents.dropLast := by
    rw [not_obstructed_iff]
    intro ancestor hpre link hlink
    rw [(h.intact ancestor link hlink).isLoadableDir_iff]
    exact h.intact.isDir_of_prefix hparent (hpre.trans (List.dropLast_prefix _)) hlink
  rcases replaceParent_spec (parentNode.del name).2 hparent with
    ⟨hobstructed, -⟩ | ⟨-, state', hrun, hgrows, -, hreplaced⟩
  · exact absurd hobstructed hclear
  · exact ⟨state', hrun, hgrows, h.erase hgrows hparent hreplaced (by simp)⟩

theorem refines_rm (h : Represents state tree) (names : List Name) :
    Refines (.rm names) state tree := by
  rcases rm_cases state names with ⟨hmissing, fault, hrun⟩ | ⟨parents, name, parentNode,
    removed, rfl, hparent, hname, hrun⟩
  · right
    refine ⟨FileTree.remove_eq_none ?_, fault, state, hrun, h, fun _ => rfl⟩
    intro ⟨hnames, hfound⟩
    exact hmissing ((h.found_iff hnames).mp hfound)
  · left
    have hlink : findLink state.world.blobs state.inner.entry (parents ++ [name]) =
        some removed := by
      rw [findLink_append_singleton, hparent]
      exact hname
    have hfound := (h.found_iff (by simp)).mpr ⟨removed, hlink⟩
    obtain ⟨state', hremove, -, hrepresents⟩ := h.removal hparent
    rw [EStateM.run_bind_of_ok hremove] at hrun
    exact ⟨_, _, FileTree.remove_of_found (by simp) hfound, hrun,
      hrepresents.grows (Grows.refl _) rfl⟩

omit P [LawfulPrimitives] in
theorem leftover_of_movable {source target : List Name} (hsource : source ≠ [])
    (houtside : ¬ source <+: target) (hfound : tree.entry source ≠ none)
    (hfree : target = [] ∨ tree.entry target = none) :
    (TreeAction.mv source target).leftover tree = tree.erase source hsource :=
  dif_pos ⟨hsource, houtside, hfound, hfree⟩

theorem refines_mv (h : Represents state tree) (source target : List Name) :
    Refines (.mv source target) state tree := by
  rcases mv_cases state source target with ⟨hrefused, fault, hrun⟩ |
    ⟨houtside, hfree, parents, name, parentNode, nodeLink, rfl, hparent, hname, hrun⟩
  · right
    have hnot : ¬ (source ≠ [] ∧ ¬ source <+: target ∧ tree.entry source ≠ none ∧
        (target = [] ∨ tree.entry target = none)) := by
      intro ⟨hsource, houtside, hfound, htarget⟩
      rcases hrefused with hself | hmissing | ⟨link, hlink⟩
      · exact houtside hself
      · obtain ⟨link, hlink⟩ := (h.found_iff hsource).mp hfound
        exact hmissing ⟨link, get_eq_ok_iff.mpr hlink⟩
      · have hlink := get_eq_ok_iff.mp hlink
        rcases htarget with rfl | hnone
        · contradiction
        · exact (h.found_iff (findLink_ne_nil hlink)).mpr ⟨link, hlink⟩ hnone
    refine ⟨FileTree.move_eq_none ?_, fault, state, hrun, ?_, by simp [TreeAction.isMv]⟩
    · intro ⟨hmovable, _⟩
      exact hnot ⟨hmovable.source_ne_nil, hmovable.outside, hmovable.found,
        Or.inr hmovable.free⟩
    · rw [TreeAction.leftover, dif_neg hnot]
      exact h
  · have hlink : findLink state.world.blobs state.inner.entry (parents ++ [name]) =
        some nodeLink := by
      rw [findLink_append_singleton, hparent]
      exact hname
    have hfound := (h.found_iff (by simp)).mpr ⟨nodeLink, hlink⟩
    obtain ⟨removed, hremove, hgrows, hrepresents⟩ := h.removal hparent
    rw [EStateM.run_bind_of_ok hremove] at hrun
    rcases List.eq_nil_or_concat target with rfl | ⟨names, last, rfl⟩
    · right
      refine ⟨FileTree.move_eq_none ?_, .panic, removed, hrun, ?_, by simp [TreeAction.isMv]⟩
      · intro ⟨hmovable, _⟩
        exact tree.ne_nil_of_eq_none hmovable.free rfl
      · rw [leftover_of_movable (by simp) houtside hfound (Or.inl rfl)]
        exact hrepresents
    · rw [List.concat_eq_append] at *
      have hnone : tree.entry (names ++ [last]) = none := by
        by_contra hsome
        obtain ⟨link, hlink⟩ := (h.found_iff (by simp)).mp hsome
        exact hfree ⟨link, get_eq_ok_iff.mpr hlink⟩
      have hclear := @Represents.clear_iff _ removed _ names last hrepresents
      rw [FileTree.clear_erase_iff (by simp) houtside] at hclear
      rcases mvInsert_spec nodeLink (relPath (parents ++ [name])) (relPath (names ++ [last]))
        names last removed with ⟨hobstructed, fault, hinsert⟩ |
          ⟨hway, state', hinsert, hgrows', hupdated⟩
      · right
        rw [hinsert] at hrun
        refine ⟨FileTree.move_eq_none ?_, fault, removed, hrun, ?_,
          by simp [TreeAction.isMv]⟩
        · intro ⟨_, hgood⟩
          exact hclear.mp hgood hobstructed
        · rw [leftover_of_movable (by simp) houtside hfound (Or.inr hnone)]
          exact hrepresents
      · left
        rw [hinsert] at hrun
        have hbranch := h.intact.branch hlink
        have hlater := hgrows.trans hgrows'
        refine ⟨_, state', FileTree.move_of_clear ⟨houtside, hfound, hnone⟩
          (hclear.mpr hway), hrun, ?_⟩
        apply hrepresents.graft hgrows' hupdated (hbranch.grows hlater)
        intro rest
        rw [hbranch.branchAt_eq hlater, branchAt_of_findLink hlink, h.entry]
        rfl

theorem refines (h : Represents state tree) {action : TreeAction}
    (hnode : action.AddsNoNode) : Refines action state tree := by
  cases action with
  | add names data => exact refines_add h hnode
  | mkdir names => exact refines_mkdir h names
  | rm names => exact refines_rm h names
  | mv source target => exact refines_mv h source target

end

/-! ## Reads -/

omit P [LawfulPrimitives] in
theorem get?_listing {node : Node} {names : List Name} {path : Path} {link : NodeLink} :
    (node.links.toList.foldl (fun (items : FinMap Path NodeLink) item =>
        items.put (relPath names ++ [.normal item.1]) item.2) KeyedMap.empty).get? path =
          some link ↔
      ∃ name, path = relPath (names ++ [name]) ∧ node.getLink name = some link := by
  have hplace : Function.Injective (fun name : Name => relPath names ++ [.normal name]) := by
    intro name name' heq
    simpa using heq
  have hlink : ∀ name, (name, link) ∈ node.links.toList ↔ node.getLink name = some link :=
    fun name => FinMap.get?_eq_some_iff.symm
  rw [FinMap.get?_foldl_put hplace (node.links.sorted.imp (fun h => h.ne))]
  simp only [hlink, FinMap.get?_empty, reduceCtorEq, and_false, or_false, relPath_append,
    relPath_cons, relPath_nil, eq_comm]

/-- The reads of the mount are those of the file tree. -/
structure ReadsAs (state : MountState) (tree : FileTree Name File) : Prop where
  dir : ∀ names, names ≠ [] →
    ((∃ link secret, state.get (absPath names) = .ok (.dir link secret)) ↔
      tree.entry names = some .dir)
  file : ∀ names mime,
    (∃ link secret, state.get (absPath names) = .ok (.data link secret mime)) ↔
      ∃ data, tree.entry names = some (.file ⟨data, mime⟩)
  cat : ∀ names data, state.cat (absPath names) = .ok data ↔
    ∃ mime, tree.entry names = some (.file ⟨data, mime⟩)
  ls : ∀ names, (∃ items, state.ls (absPath names) = .ok items) ↔
    tree.entry names = some .dir
  items : ∀ names items, state.ls (absPath names) = .ok items → ∀ path link,
    items.get? path = some link ↔
      ∃ name, path = relPath (names ++ [name]) ∧
        state.get (absPath (names ++ [name])) = .ok link

omit [LawfulPrimitives] in
/-- A node is found at the directories of the tree. -/
theorem Represents.walkNode_iff {state : MountState} {tree : FileTree Name File}
    (h : Represents state tree) (names : List Name) :
    (∃ node, walkNode state.world.blobs state.inner.entry names = some node) ↔
      tree.entry names = some .dir := by
  rw [← h.entry]
  by_cases hnames : names = []
  · rw [hnames]
    exact iff_of_true ⟨_, rfl⟩ rfl
  rw [walkNode_of_findLink hnames, entryAt_of_ne_nil hnames]
  cases hlink : findLink state.world.blobs state.inner.entry names with
  | none => simp
  | some link =>
      have hintact := h.intact names link hlink
      rw [Option.bind_some, Option.bind_some, linkEntry_eq_dir_iff]
      constructor
      · intro ⟨node, hload⟩
        exact hintact.isDir_of_loadNode hload
      · intro hdir
        exact Option.isSome_iff_exists.mp (hintact.isLoadableDir_iff.mpr hdir).2

omit [LawfulPrimitives] in
/-- The files of the tree are those whose bytes can be read. -/
theorem Represents.file_eq_iff {state : MountState} {tree : FileTree Name File}
    (h : Represents state tree) {names : List Name} {data : Bytes} {mime : Option Name} :
    tree.entry names = some (.file ⟨data, mime⟩) ↔
      ∃ link secret blob,
        findLink state.world.blobs state.inner.entry names = some (.data link secret mime) ∧
          state.world.blobs link.hash = some blob ∧ secret.decrypt blob = some data := by
  constructor
  · intro hentry
    obtain ⟨link, hlink, hfile⟩ := h.file_iff.mp ⟨_, hentry⟩
    cases link with
    | dir link secret => contradiction
    | data link secret mime' =>
        obtain ⟨blob, data', hblob, hdata, -⟩ := h.intact names _ hlink
        rw [← h.entry, entryAt_of_findLink hlink] at hentry
        simp only [linkEntry, hblob, hdata, Option.bind_some, Option.map_some] at hentry
        cases hentry
        exact ⟨link, secret, blob, hlink, hblob, hdata⟩
  · intro ⟨link, secret, blob, hlink, hblob, hdata⟩
    rw [← h.entry, entryAt_of_findLink hlink]
    simp [linkEntry, hblob, hdata]

omit [LawfulPrimitives] in
theorem Represents.readsAs {state : MountState} {tree : FileTree Name File}
    (h : Represents state tree) : ReadsAs state tree := by
  constructor
  · intro names hnames
    unfold MountState.get
    simp only [get_eq_ok_iff]
    rw [← h.entry, entryAt_of_ne_nil hnames]
    cases findLink state.world.blobs state.inner.entry names with
    | none => simp
    | some link =>
        rw [Option.bind_some, linkEntry_eq_dir_iff]
        cases link <;> simp [NodeLink.isDir]
  · intro names mime
    unfold MountState.get
    simp only [get_eq_ok_iff, h.file_eq_iff]
    constructor
    · rintro ⟨link, secret, hlink⟩
      obtain ⟨blob, data, hblob, hdata, -⟩ := h.intact names _ hlink
      exact ⟨data, link, secret, blob, hlink, hblob, hdata⟩
    · rintro ⟨data, link, secret, blob, hlink, _⟩
      exact ⟨link, secret, hlink⟩
  · intro names data
    unfold MountState.cat
    simp only [cat_absPath, h.file_eq_iff]
    constructor
    · rintro ⟨link, secret, mime, blob, hread⟩
      exact ⟨mime, link, secret, blob, hread⟩
    · rintro ⟨mime, link, secret, blob, hread⟩
      exact ⟨link, secret, mime, blob, hread⟩
  · intro names
    rw [← h.walkNode_iff]
    unfold MountState.ls
    rcases ls_absPath state.world.blobs state.inner.entry names with ⟨node, hwalk, hls⟩ |
      ⟨hwalk, fault, hls⟩
    · simp [hwalk, hls]
    · simp [hwalk, hls]
  · intro names items hitems path link
    unfold MountState.ls at hitems
    rcases ls_absPath state.world.blobs state.inner.entry names with ⟨node, hwalk, hls⟩ |
      ⟨-, fault, hls⟩
    · rw [hls] at hitems
      cases hitems
      unfold MountState.get
      rw [get?_listing]
      simp only [get_eq_ok_iff, findLink_append_singleton, hwalk, Option.bind_some]
    · rw [hls] at hitems
      contradiction

/-! ## Runs from a new bucket -/

namespace TreeAction

def step (state : MountState) (action : TreeAction) : MountState :=
  (action.perform.run state).state

/-- The tree after the operation, whether it succeeds or not. -/
noncomputable def next (tree : FileTree Name File) (action : TreeAction) :
    FileTree Name File :=
  (action.effect tree).getD (action.leftover tree)

end TreeAction

theorem Represents.step {state : MountState} {tree : FileTree Name File}
    (h : Represents state tree) {action : TreeAction} (hnode : action.AddsNoNode) :
    Represents (TreeAction.step state action) (action.next tree) := by
  unfold TreeAction.step TreeAction.next
  rcases refines h hnode with ⟨tree', state', heffect, hrun, hrepresents⟩ |
    ⟨heffect, fault, state', hrun, hrepresents, -⟩
  · rw [hrun, heffect]
    exact hrepresents
  · rw [hrun, heffect]
    exact hrepresents

theorem Represents.run {state : MountState} {tree : FileTree Name File}
    (h : Represents state tree) {actions : List TreeAction}
    (hnodes : ∀ action ∈ actions, action.AddsNoNode) :
    Represents (actions.foldl TreeAction.step state) (actions.foldl TreeAction.next tree) := by
  induction actions generalizing state tree with
  | nil => exact h
  | cons action rest ih =>
      have hfirst := h.step (hnodes action List.mem_cons_self)
      exact ih hfirst (fun later hlater => hnodes later (List.mem_cons_of_mem _ hlater))

theorem represents_init {id : Uuid} {name : Name} {owner : SecretKey} {world world' : World}
    {inner : MountInner} (hinit : (init id name owner).run world = .ok inner world') :
    Represents ⟨world', inner⟩ FileTree.empty := by
  obtain ⟨version, -, hinner, hentry, -⟩ := stored_of_init hinit
  have hnone : ∀ names, findLink world'.blobs inner.entry names = none := by
    intro names
    rw [hinner, Version.mount, hentry]
    exact findLink_default _ _
  constructor
  · intro names link hlink
    rw [hnone] at hlink
    contradiction
  · intro names
    cases names with
    | nil => rfl
    | cons first rest => exact entryAt_of_eq_none (by simp) (hnone _)

/-- The mount refines the file tree.  After any operations on a new bucket it represents
the tree that the same operations make of an empty one, its reads are those of the tree,
and the next operation succeeds exactly when it can be done on the tree.  No file that is
added may be a node. -/
theorem mount_refines_fileTree {id : Uuid} {name : Name} {owner : SecretKey}
    {world world' : World} {inner : MountInner}
    (hinit : (init id name owner).run world = .ok inner world') (actions : List TreeAction)
    (hnodes : ∀ action ∈ actions, action.AddsNoNode) :
    Represents (actions.foldl TreeAction.step ⟨world', inner⟩)
      (actions.foldl TreeAction.next FileTree.empty) ∧
    ReadsAs (actions.foldl TreeAction.step ⟨world', inner⟩)
      (actions.foldl TreeAction.next FileTree.empty) ∧
    ∀ action : TreeAction, action.AddsNoNode →
      Refines action (actions.foldl TreeAction.step ⟨world', inner⟩)
        (actions.foldl TreeAction.next FileTree.empty) := by
  have hrun := (represents_init hinit).run hnodes
  exact ⟨hrun, hrun.readsAs, fun action hnode => refines hrun hnode⟩

end

namespace Reference

/-- A directory with a file and a directory in it, moved as a whole. -/
def movedBranch : List TreeAction :=
  [.mkdir ["a".toList, "b".toList], .add ["a".toList, "f".toList] [1],
    .mv ["a".toList] ["c".toList], .rm ["c".toList, "b".toList]]

theorem movedBranch_refines :
    (∀ action ∈ movedBranch, action.AddsNoNode) ∧
    ReadsAs (movedBranch.foldl TreeAction.step freshMount)
      (movedBranch.foldl TreeAction.next FileTree.empty) ∧
    Refines (.add ["c".toList, "f".toList] [2])
      (movedBranch.foldl TreeAction.step freshMount)
      (movedBranch.foldl TreeAction.next FileTree.empty) := by
  have hnode : primitives.decodeNode [1] = none := rfl
  have hnode' : primitives.decodeNode [2] = none := rfl
  have hnodes : ∀ action ∈ movedBranch, action.AddsNoNode := by
    intro action haction
    simp only [movedBranch, List.mem_cons, List.not_mem_nil, or_false] at haction
    rcases haction with rfl | rfl | rfl | rfl
    · trivial
    · exact hnode
    · trivial
    · trivial
  have hrefines := mount_refines_fileTree run_init_freshMount movedBranch hnodes
  exact ⟨hnodes, hrefines.2.1, hrefines.2.2 (.add ["c".toList, "f".toList] [2]) hnode'⟩

end Reference

end JaxFs

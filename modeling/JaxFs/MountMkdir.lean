import JaxFs.MountAnswers

/-!
# Making directories

`mkdir` on a path of names has three outcomes: the path is taken, something on the
way to it is no directory, or the directory is made.  In the last case the tree has
grown by directories only.  Every file is where it was, and no path has become
harder to read or to write.
-/

namespace JaxFs

section

variable [P : Primitives]

/-! ## Links on the way along a path -/

/-- A link on the way along the path leads to no node. -/
def Unreadable (blobs : Blobs) (node : Node) (names : List Name) : Prop :=
  ∃ ancestor link, ancestor <+: names ∧ findLink blobs node ancestor = some link ∧
    loadNode blobs link = none

theorem findLink_ne_nil {blobs : Blobs} {node : Node} {names : List Name}
    {link : NodeLink} (h : findLink blobs node names = some link) : names ≠ [] := by
  intro hnil
  rw [hnil] at h
  contradiction

/-- The first link decides, or the path continues in the child. -/
theorem exists_onWay_cons_iff {bad : NodeLink → Prop} {blobs : Blobs} {node : Node}
    {name : Name} {names : List Name} :
    (∃ ancestor link, ancestor <+: name :: names ∧
        findLink blobs node ancestor = some link ∧ bad link) ↔
      ∃ link, node.getLink name = some link ∧
        (bad link ∨ ∃ child, loadNode blobs link = some child ∧
          ∃ ancestor link, ancestor <+: names ∧
            findLink blobs child ancestor = some link ∧ bad link) := by
  constructor
  · intro ⟨ancestor, link, hpre, hlink, hbad⟩
    cases ancestor with
    | nil => contradiction
    | cons first rest =>
        obtain ⟨rfl, hrest⟩ := List.cons_prefix_cons.mp hpre
        cases rest with
        | nil => exact ⟨link, hlink, Or.inl hbad⟩
        | cons second rest =>
            rw [findLink_cons (by simp)] at hlink
            obtain ⟨child, hchild, hbelow⟩ := Option.bind_eq_some_iff.mp hlink
            obtain ⟨found, hfound, hload⟩ := Option.bind_eq_some_iff.mp hchild
            exact ⟨found, hfound, Or.inr ⟨child, hload, second :: rest, link, hrest, hbelow,
              hbad⟩⟩
  · intro ⟨found, hfound, hcases⟩
    rcases hcases with hbad | ⟨child, hload, ancestor, link, hpre, hlink, hbad⟩
    · exact ⟨[name], found, by simp, hfound, hbad⟩
    · refine ⟨name :: ancestor, link, List.cons_prefix_cons.mpr ⟨rfl, hpre⟩, ?_, hbad⟩
      rw [findLink_cons (findLink_ne_nil hlink), hfound, Option.bind_some, hload]
      exact hlink

/-- A larger store leads a walk no further astray, when links without a node count
as bad ones. -/
theorem Grows.exists_onWay {world world' : World} (h : Grows world world')
    {bad bad' : NodeLink → Prop} (hbad : ∀ link, bad' link → bad link)
    (hnone : ∀ link, JaxFs.loadNode world.blobs link = none → bad link) {node : Node}
    {names : List Name}
    (hmet : ∃ ancestor link, ancestor <+: names ∧
      JaxFs.findLink world'.blobs node ancestor = some link ∧ bad' link) :
    ∃ ancestor link, ancestor <+: names ∧
      JaxFs.findLink world.blobs node ancestor = some link ∧ bad link := by
  induction names generalizing node with
  | nil =>
      obtain ⟨ancestor, link, hpre, hlink, -⟩ := hmet
      exact absurd (List.prefix_nil.mp hpre) (findLink_ne_nil hlink)
  | cons name names ih =>
      obtain ⟨link, hlink, hcases⟩ := exists_onWay_cons_iff.mp hmet
      apply exists_onWay_cons_iff.mpr
      refine ⟨link, hlink, ?_⟩
      cases hload : JaxFs.loadNode world.blobs link with
      | none => exact Or.inl (hnone link hload)
      | some child =>
          rcases hcases with hfirst | ⟨child', hload', hrest⟩
          · exact Or.inl (hbad link hfirst)
          · rw [h.loadNode hload] at hload'
            cases hload'
            exact Or.inr ⟨child, rfl, ih hrest⟩

theorem Grows.isLoadableDir {world world' : World} (h : Grows world world')
    {link : NodeLink} (hdir : IsLoadableDir world.blobs link) :
    IsLoadableDir world'.blobs link := by
  obtain ⟨node, hload⟩ := Option.isSome_iff_exists.mp hdir.2
  refine ⟨hdir.1, ?_⟩
  rw [h.loadNode hload]
  rfl

theorem not_isLoadableDir_of_none {blobs : Blobs} {link : NodeLink}
    (h : loadNode blobs link = none) : ¬ IsLoadableDir blobs link := by
  intro hdir
  have hsome := hdir.2
  rw [h] at hsome
  contradiction

theorem Grows.obstructed {world world' : World} (h : Grows world world') {node : Node}
    {names : List Name} (hbad : Obstructed world'.blobs node names) :
    Obstructed world.blobs node names :=
  h.exists_onWay (fun _ hnot hdir => hnot (h.isLoadableDir hdir))
    (fun _ => not_isLoadableDir_of_none) hbad

theorem Unreadable.obstructed {blobs : Blobs} {node : Node} {names : List Name}
    (h : Unreadable blobs node names) : Obstructed blobs node names := by
  obtain ⟨ancestor, link, hpre, hlink, hload⟩ := h
  exact ⟨ancestor, link, hpre, hlink, not_isLoadableDir_of_none hload⟩

/-- The paths above one that is found are found. -/
theorem findLink_of_prefix {blobs : Blobs} {node : Node} {ancestor names : List Name}
    {link : NodeLink} (hlink : findLink blobs node names = some link)
    (hancestor : ancestor ≠ []) (hpre : ancestor <+: names) :
    ∃ above, findLink blobs node ancestor = some above := by
  obtain ⟨rest, rfl⟩ := hpre
  by_cases hrest : rest = []
  · subst hrest
    rw [List.append_nil] at hlink
    exact ⟨link, hlink⟩
  · rw [findLink_append hrest, walkNode_of_findLink hancestor] at hlink
    obtain ⟨child, hchild, -⟩ := Option.bind_eq_some_iff.mp hlink
    obtain ⟨above, habove, -⟩ := Option.bind_eq_some_iff.mp hchild
    exact ⟨above, habove⟩

/-- A read of a path ends at a node or at a missing name, or else at a link that
leads to no node. -/
theorem getNodeAtPathFrom_cases (blobs : Blobs) (consumed : Path) (node : Node)
    (names : List Name) :
    (¬ Unreadable blobs node names ∧
      ((∃ child, getNodeAtPathFrom blobs consumed node (relPath names) = .ok child) ∨
        ∃ path, getNodeAtPathFrom blobs consumed node (relPath names) =
          .error (.error (.pathNotFound path)))) ∨
    (Unreadable blobs node names ∧ ∃ error,
      getNodeAtPathFrom blobs consumed node (relPath names) = .error (.error error) ∧
        error.isMissingOrTaken = false) := by
  induction names generalizing consumed node with
  | nil =>
      left
      refine ⟨?_, Or.inl ⟨node, rfl⟩⟩
      intro ⟨ancestor, link, hpre, hlink, _⟩
      exact findLink_ne_nil hlink (List.prefix_nil.mp hpre)
  | cons name names ih =>
      have hcons := @exists_onWay_cons_iff _ (fun link => loadNode blobs link = none) blobs
        node name names
      rw [relPath_cons, getNodeAtPathFrom, Component.toName]
      cases hlink : node.getLink name with
      | none =>
          left
          refine ⟨?_, Or.inr ⟨_, rfl⟩⟩
          intro hbad
          obtain ⟨link, hsome, -⟩ := hcons.mp hbad
          rw [hlink] at hsome
          contradiction
      | some link =>
          dsimp only
          cases hload : getNodeFromBlobs blobs link with
          | error fault =>
              right
              have hnone : loadNode blobs link = none := by
                rw [loadNode, hload]
                rfl
              obtain ⟨error, rfl, hother⟩ := getNodeFromBlobs_error hload
              exact ⟨hcons.mpr ⟨link, hlink, Or.inl hnone⟩, error, rfl, hother⟩
          | ok child =>
              have hsome : loadNode blobs link = some child := by
                rw [loadNode, hload]
                rfl
              have hiff : Unreadable blobs node (name :: names) ↔
                  Unreadable blobs child names := by
                unfold Unreadable
                rw [hcons, hlink]
                simp [hsome]
              rw [hiff]
              exact ih _ child

/-! ## The tree with a new directory -/

/-- The tree after a directory has been made where nothing was. -/
structure DirMade (world : World) (entry : Node) (parents : List Name) (name : Name)
    (world' : World) (entry' : Node) : Prop where
  grows : Grows world world'
  readable : ¬ Unreadable world.blobs entry parents
  free : findLink world.blobs entry (parents ++ [name]) = none
  clear : ¬ Obstructed world'.blobs entry parents
  made : ∃ newLink, newLink.isDir = true ∧
    loadNode world'.blobs newLink = some Node.default ∧
    Updated world'.blobs newLink parents name entry entry'

namespace DirMade

variable {world world' : World} {entry entry' : Node} {parents : List Name} {name : Name}

/-- The new directory, and those on the way to it. -/
theorem dir_of_prefix (h : DirMade world entry parents name world' entry')
    {path : List Name} (hnil : path ≠ []) (habove : path <+: parents ++ [name]) :
    ∃ link, findLink world'.blobs entry' path = some link ∧
      IsLoadableDir world'.blobs link := by
  obtain ⟨newLink, hdir, hempty, hupdated⟩ := h.made
  rcases List.prefix_concat_iff.mp (by simpa using habove) with heq | hproper
  · refine ⟨newLink, ?_, hdir, ?_⟩
    · rw [heq]
      simpa using hupdated.findLink_self
    · rw [hempty]
      rfl
  · exact hupdated.isLoadableDir_of_prefix hnil hproper

/-- A path of the new tree leads to a directory on the way to the new one, below the
new one where there is nothing, or where it did. -/
theorem findLink_cases (h : DirMade world entry parents name world' entry')
    (path : List Name) :
    (path <+: parents ++ [name] ∧ ∃ link, findLink world'.blobs entry' path = some link ∧
      IsLoadableDir world'.blobs link) ∨
    (parents ++ [name] <+: path ∧ findLink world'.blobs entry' path = none) ∨
    findLink world'.blobs entry' path = findLink world'.blobs entry path := by
  obtain ⟨newLink, hdir, hempty, hupdated⟩ := h.made
  by_cases hnil : path = []
  · rw [hnil]
    exact Or.inr (Or.inr rfl)
  by_cases habove : path <+: parents ++ [name]
  · left
    exact ⟨habove, h.dir_of_prefix hnil habove⟩
  by_cases hbelow : parents ++ [name] <+: path
  · right
    left
    refine ⟨hbelow, ?_⟩
    obtain ⟨rest, rfl⟩ := hbelow
    have hrest : rest ≠ [] := by
      intro heq
      rw [heq, List.append_nil] at habove
      exact habove (List.prefix_refl _)
    rw [hupdated.findLink_below hrest, hempty, Option.bind_some, findLink_default]
  · exact Or.inr (Or.inr (hupdated.findLink_apart habove hbelow))

/-- Nothing was found at the new directory or below it. -/
theorem not_found (h : DirMade world entry parents name world' entry') {path : List Name}
    (hbelow : parents ++ [name] <+: path) {link : NodeLink} :
    findLink world.blobs entry path ≠ some link := by
  intro hlink
  obtain ⟨above, habove⟩ := findLink_of_prefix hlink (by simp) hbelow
  rw [h.free] at habove
  contradiction

/-- What was no directory in the grown store is where it was. -/
theorem findLink_of_not_dir (h : DirMade world entry parents name world' entry')
    {path : List Name} {link : NodeLink} (hlink : findLink world.blobs entry path = some link)
    (hnot : ¬ IsLoadableDir world'.blobs link) :
    findLink world'.blobs entry' path = some link := by
  have hlater := h.grows.findLink hlink
  rcases h.findLink_cases path with ⟨habove, -⟩ | ⟨hbelow, -⟩ | hsame
  · exfalso
    rcases List.prefix_concat_iff.mp (by simpa using habove) with heq | hproper
    · apply h.not_found ?_ hlink
      rw [heq]
    · exact h.clear ⟨path, link, hproper, hlater, hnot⟩
  · exact absurd hlink (h.not_found hbelow)
  · rw [hsame]
    exact hlater

theorem found (h : DirMade world entry parents name world' entry') {path : List Name}
    {link : NodeLink} (hlink : findLink world.blobs entry path = some link) :
    ∃ link', findLink world'.blobs entry' path = some link' := by
  rcases h.findLink_cases path with ⟨-, link', hlink', -⟩ | ⟨hbelow, -⟩ | hsame
  · exact ⟨link', hlink'⟩
  · exact absurd hlink (h.not_found hbelow)
  · rw [hsame]
    exact ⟨link, h.grows.findLink hlink⟩

/-- A link of the new tree that is no directory was in the old one. -/
theorem exists_onWay (h : DirMade world entry parents name world' entry')
    {bad : NodeLink → Prop} (hbad : ∀ link, IsLoadableDir world'.blobs link → ¬ bad link)
    {names : List Name}
    (hmet : ∃ ancestor link, ancestor <+: names ∧
      findLink world'.blobs entry' ancestor = some link ∧ bad link) :
    ∃ ancestor link, ancestor <+: names ∧
      findLink world'.blobs entry ancestor = some link ∧ bad link := by
  obtain ⟨ancestor, link, hpre, hlink, hlinkBad⟩ := hmet
  refine ⟨ancestor, link, hpre, ?_, hlinkBad⟩
  rcases h.findLink_cases ancestor with ⟨-, link', hlink', hdir⟩ | ⟨-, hnone⟩ | hsame
  · rw [hlink] at hlink'
    cases hlink'
    exact absurd hlinkBad (hbad link hdir)
  · rw [hlink] at hnone
    contradiction
  · rw [← hsame]
    exact hlink

theorem obstructed (h : DirMade world entry parents name world' entry')
    {names : List Name} (hbad : Obstructed world'.blobs entry' names) :
    Obstructed world.blobs entry names := by
  apply h.grows.obstructed
  exact h.exists_onWay (fun _ hdir hnot => hnot hdir) hbad

/-! The rest is about complete trees, where a larger store changes no read. -/

theorem complete (h : DirMade world entry parents name world' entry')
    (hcomplete : Complete world.blobs entry) : Complete world'.blobs entry' := by
  intro path link hlink
  rcases h.findLink_cases path with ⟨-, link', hlink', hdir⟩ | ⟨-, hnone⟩ | hsame
  · rw [hlink] at hlink'
    cases hlink'
    obtain ⟨node, hload⟩ := Option.isSome_iff_exists.mp hdir.2
    exact stored_of_loadNode hload
  · rw [hlink] at hnone
    contradiction
  · rw [hsame, hcomplete.findLink_eq h.grows] at hlink
    obtain ⟨blob, hblob⟩ := hcomplete path link hlink
    exact ⟨blob, h.grows.blobs _ _ hblob⟩

theorem obstructed_iff (h : DirMade world entry parents name world' entry')
    (hcomplete : Complete world.blobs entry) {names : List Name} :
    Obstructed world'.blobs entry' names ↔ Obstructed world.blobs entry names := by
  constructor
  · exact h.obstructed
  · intro ⟨ancestor, link, hpre, hlink, hnot⟩
    rw [← hcomplete.isLoadableDir_iff h.grows hlink] at hnot
    exact ⟨ancestor, link, hpre, h.findLink_of_not_dir hlink hnot, hnot⟩

end DirMade

/-! ## The outcomes -/

theorem mkdirParent_relPath (blobs : Blobs) (entry : Node) (parents : List Name) :
    mkdirParent blobs entry (relPath parents) =
      match getNodeAtPath blobs entry (relPath parents) with
      | .error (.error (.pathNotFound _)) => .ok Node.default
      | result => result := by
  unfold mkdirParent
  cases parents with
  | nil => rfl
  | cons first rest =>
      exact if_neg (by simp)

/-- The parent that `mkdir` finds: a directory to be made is missing from it, or
there is something on the way that leads to no node. -/
theorem mkdirParent_cases (blobs : Blobs) (entry : Node) (parents : List Name)
    (name : Name) :
    (¬ Unreadable blobs entry parents ∧
      ∃ parentNode, mkdirParent blobs entry (relPath parents) = .ok parentNode ∧
        parentNode.getLink name = findLink blobs entry (parents ++ [name])) ∨
    (findLink blobs entry (parents ++ [name]) = none ∧ Unreadable blobs entry parents ∧
      ∃ error, mkdirParent blobs entry (relPath parents) = .error (.error error) ∧
        error.isMissingOrTaken = false) := by
  rw [mkdirParent_relPath, findLink_append_singleton]
  rcases getNodeAtPathFrom_cases blobs [.rootDir] entry parents with
    ⟨hreadable, ⟨child, hok⟩ | ⟨path, hmissing⟩⟩ | ⟨hbad, error, herror, hother⟩
  · left
    refine ⟨hreadable, child, ?_, ?_⟩
    · rw [getNodeAtPath, hok]
    · rw [getNodeAtPathFrom_eq_ok_iff.mp hok]
      rfl
  · left
    refine ⟨hreadable, Node.default, ?_, ?_⟩
    · rw [getNodeAtPath, hmissing]
    · rw [walkNode_eq_none_of_error hmissing]
      rfl
  · right
    refine ⟨?_, hbad, error, ?_, hother⟩
    · rw [walkNode_eq_none_of_error herror]
      rfl
    · rw [getNodeAtPath, herror]
      cases error with
      | pathNotFound path => contradiction
      | _ => rfl

variable [LawfulPrimitives]

/-- A directory is made, or the path was taken, or the way to it was obstructed. -/
theorem mkdir_spec (parents : List Name) (name : Name) (state : MountState) :
    ((∃ link, findLink state.world.blobs state.inner.entry (parents ++ [name]) =
        some link) ∧
      ∃ path, (mkdir (absPath (parents ++ [name]))).run state =
        .error (.error (.pathAlreadyExists path)) state) ∨
    (findLink state.world.blobs state.inner.entry (parents ++ [name]) = none ∧
      Obstructed state.world.blobs state.inner.entry parents ∧
      ∃ error world', (mkdir (absPath (parents ++ [name]))).run state =
          .error (.error error) { state with world := world' } ∧
        error.isMissingOrTaken = false) ∨
    (∃ state', (mkdir (absPath (parents ++ [name]))).run state = .ok () state' ∧
      DirMade state.world state.inner.entry parents name state'.world state'.inner.entry ∧
      state'.inner.manifest = state.inner.manifest ∧
      state'.inner.opsLog = (state.inner.opsLog.record state.inner.peerId .mkdir
        (relPath (parents ++ [name])) none true).2) := by
  unfold mkdir
  rw [cleanPath_absPath, EStateM.run_bind_of_ok (EStateM.run_ofExcept_ok _ _),
    run_getThe_bind, parentAndName_relPath,
    EStateM.run_bind_of_ok (EStateM.run_ofExcept_ok _ _)]
  dsimp only
  rcases mkdirParent_cases state.world.blobs state.inner.entry parents name with
    ⟨hreadable, parentNode, hparent, hname⟩ | ⟨hfree, hbad, error, herror, hother⟩
  · rw [EStateM.run_bind_of_ok (run_readBlobs_of_ok hparent), hname]
    cases hfound : findLink state.world.blobs state.inner.entry (parents ++ [name]) with
    | some link =>
        left
        rw [if_pos (by simp)]
        exact ⟨⟨link, rfl⟩, _, rfl⟩
    | none =>
        right
        rw [if_neg (by simp), rootDir_relPath]
        obtain ⟨link, secret, world', hgrows, hload, hrun⟩ :=
          run_storeNode Node.default state
        rw [hrun]
        rcases setNodeLinkAtPath_spec state.inner.entry (.dir link secret) parents name
          world' with ⟨hobstructed, error, hset, hother⟩ | ⟨hclear, root, rootSecret,
            hashes, world'', entry', hset, hgrows', hroot, hupdated⟩
        · left
          refine ⟨rfl, hgrows.obstructed hobstructed, error, world', ?_, hother⟩
          rw [EStateM.run_bind_of_error (run_onBlobs_of_error hset)]
        · right
          rw [EStateM.run_bind_of_ok (run_onBlobs_of_ok hset)]
          dsimp only
          rw [EStateM.run_bind_of_ok (run_reloadRoot hroot)]
          refine ⟨_, rfl, ?_, rfl, rfl⟩
          refine ⟨hgrows.trans hgrows', hreadable, hfound, ?_, ?_⟩
          · exact fun hobstructed => hclear (hgrows'.obstructed hobstructed)
          · exact ⟨.dir link secret, rfl, hgrows'.loadNode hload, hupdated⟩
  · right
    left
    rw [EStateM.run_bind_of_error (run_readBlobs_of_error herror)]
    exact ⟨hfree, hbad.obstructed, error, state.world, rfl, hother⟩

end

end JaxFs

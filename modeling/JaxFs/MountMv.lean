import JaxFs.MountAnswers

/-!
# Moves that fail

`mv` removes the source from the mount and then inserts it at the destination.
Whatever fails before the removal leaves the mount as it was.  The insertion can
fail as well, when a link on the way to the destination is no directory, and then
the source is gone: `Strands` says for which states and paths that happens.
-/

namespace JaxFs

section

variable [P : Primitives]

/-- A failure leaves every read and the operation log as they were. -/
def Atomic {α : Type} (x : MountM α) (state : MountState) : Prop :=
  ∀ fault state', x.run state = .error fault state' →
    SameAnswers state state' ∧ state'.inner.opsLog = state.inner.opsLog

/-- The move passes every check, its source can be taken out of the tree, and a
link on the way to its destination is no directory. -/
structure Strands (state : MountState) (source target : List Name) : Prop where
  outside : ¬ source <+: target
  found : ∃ link, state.get (absPath source) = .ok link
  free : ¬ ∃ link, state.get (absPath target) = .ok link
  removable : ∀ ancestor, ancestor <+: source.dropLast → ancestor ≠ source.dropLast →
    ∀ link, state.get (absPath ancestor) = .ok link → link.isDir = true
  obstructed : ∃ ancestor link, ancestor <+: target.dropLast ∧
    ancestor ≠ source.dropLast ∧ state.get (absPath ancestor) = .ok link ∧
    ¬ IsLoadableDir state.world.blobs link

/-! ## The way to a node that is reached -/

omit P in
theorem prefix_dropLast_iff {ancestor names : List Name} (hnames : names ≠ []) :
    ancestor <+: names.dropLast ↔ ancestor <+: names ∧ ancestor ≠ names := by
  obtain ⟨init, last, rfl⟩ := List.eq_nil_or_concat names |>.resolve_left hnames
  rw [List.concat_eq_append, List.dropLast_concat, List.prefix_concat_iff]
  constructor
  · intro hpre
    refine ⟨Or.inr hpre, ?_⟩
    intro heq
    have hlength := hpre.length_le
    rw [heq, List.length_append] at hlength
    simp at hlength
  · intro ⟨hpre, hne⟩
    exact hpre.resolve_left hne

/-- The links on the way to a node that is reached can be loaded. -/
theorem loadNode_of_walkNode {blobs : Blobs} {entry child : Node} {names : List Name}
    (hwalk : walkNode blobs entry names = some child) {ancestor : List Name}
    (hpre : ancestor <+: names) {link : NodeLink}
    (hlink : findLink blobs entry ancestor = some link) :
    (loadNode blobs link).isSome = true := by
  obtain ⟨rest, rfl⟩ := hpre
  have hne : ancestor ≠ [] := by
    intro hnil
    rw [hnil] at hlink
    contradiction
  rw [walkNode_append, walkNode_of_findLink hne, hlink, Option.bind_some] at hwalk
  cases hload : loadNode blobs link with
  | none =>
      rw [hload] at hwalk
      contradiction
  | some node => rfl

theorem findLink_of_walkNode {blobs : Blobs} {entry child : Node} {names : List Name}
    (hwalk : walkNode blobs entry names = some child) {ancestor : List Name}
    (hpre : ancestor <+: names) (hne : ancestor ≠ []) :
    ∃ link, findLink blobs entry ancestor = some link := by
  obtain ⟨rest, rfl⟩ := hpre
  rw [walkNode_append, walkNode_of_findLink hne] at hwalk
  cases hlink : findLink blobs entry ancestor with
  | none => simp [hlink] at hwalk
  | some link => exact ⟨link, rfl⟩

/-- More blobs neither clear nor obstruct the way to a node that is reached. -/
theorem obstructed_dropLast_iff {world world' : World} (hgrows : Grows world world')
    {entry child : Node} {names : List Name}
    (hwalk : walkNode world.blobs entry names = some child) :
    Obstructed world'.blobs entry names.dropLast ↔
      Obstructed world.blobs entry names.dropLast := by
  have hpre : ∀ ancestor, ancestor <+: names.dropLast → ancestor <+: names :=
    fun _ h => h.trans (List.dropLast_prefix _)
  have hload : ∀ ancestor link, ancestor <+: names.dropLast →
      findLink world.blobs entry ancestor = some link →
        (IsLoadableDir world'.blobs link ↔ IsLoadableDir world.blobs link) := by
    intro ancestor link habove hlink
    obtain ⟨node, hnode⟩ :=
      Option.isSome_iff_exists.mp (loadNode_of_walkNode hwalk (hpre _ habove) hlink)
    unfold IsLoadableDir
    rw [hnode, hgrows.loadNode hnode]
  constructor
  · intro ⟨ancestor, link, habove, hlink, hbad⟩
    have hne : ancestor ≠ [] := by
      rintro rfl
      contradiction
    obtain ⟨found, hfound⟩ := findLink_of_walkNode hwalk (hpre _ habove) hne
    rw [hgrows.findLink hfound] at hlink
    cases hlink
    exact ⟨ancestor, link, habove, hfound, fun h => hbad ((hload _ _ habove hfound).mpr h)⟩
  · intro ⟨ancestor, link, habove, hlink, hbad⟩
    exact ⟨ancestor, link, habove, hgrows.findLink hlink,
      fun h => hbad ((hload _ _ habove hlink).mp h)⟩

/-! ## The removal -/

/-- The tree below `entry'` is that below `entry` with another node at `parents`. -/
structure NodeReplaced (blobs : Blobs) (parents : List Name) (parentNode entry entry' : Node) :
    Prop where
  at_path : walkNode blobs entry' parents = some parentNode
  above : ∀ ancestor, ancestor ≠ [] → ancestor <+: parents →
    ∃ link, findLink blobs entry' ancestor = some link ∧ IsLoadableDir blobs link
  aside : ∀ path, ¬ path <+: parents → ¬ parents <+: path →
    findLink blobs entry' path = findLink blobs entry path

theorem NodeReplaced.root (blobs : Blobs) (entry parentNode : Node) :
    NodeReplaced blobs [] parentNode entry parentNode := by
  constructor
  · rfl
  · intro ancestor hne hpre
    exact absurd (List.prefix_nil.mp hpre) hne
  · intro path _ hnot
    exact absurd (List.nil_prefix) hnot

theorem NodeReplaced.of_updated {blobs : Blobs} {names : List Name} {name : Name}
    {link : Link} {secret : Secret} {parentNode entry entry' : Node}
    (hload : loadNode blobs (.dir link secret) = some parentNode)
    (h : Updated blobs (.dir link secret) names name entry entry') :
    NodeReplaced blobs (names ++ [name]) parentNode entry entry' := by
  constructor
  · rw [walkNode_of_findLink (by simp), h.findLink_self]
    exact hload
  · intro ancestor hne hpre
    rcases List.prefix_concat_iff.mp (by simpa using hpre) with heq | hproper
    · refine ⟨.dir link secret, ?_, rfl, ?_⟩
      · rw [heq]
        simpa using h.findLink_self
      · rw [hload]
        rfl
    · exact h.isLoadableDir_of_prefix hne hproper
  · intro path hnotAbove hnotBelow
    exact h.findLink_apart hnotAbove hnotBelow

variable [LawfulPrimitives]

/-- The removal fails without touching the mount, or it replaces the node at the
path. -/
theorem replaceParent_spec {parents : List Name} (parentNode : Node) {state : MountState}
    {child : Node} (hparent : walkNode state.world.blobs state.inner.entry parents = some child) :
    (Obstructed state.world.blobs state.inner.entry parents.dropLast ∧
      ∃ fault world', (replaceParent state.inner.entry (relPath parents) parentNode).run
          state = .error fault { state with world := world' } ∧
        Grows state.world world') ∨
    (¬ Obstructed state.world.blobs state.inner.entry parents.dropLast ∧
      ∃ state', (replaceParent state.inner.entry (relPath parents) parentNode).run state =
          .ok () state' ∧
        Grows state.world state'.world ∧ state'.inner.opsLog = state.inner.opsLog ∧
        NodeReplaced state'.world.blobs parents parentNode state.inner.entry
          state'.inner.entry) := by
  rcases List.eq_nil_or_concat parents with rfl | ⟨names, name, rfl⟩
  · right
    obtain ⟨link, secret, world', hgrows, -, hrun⟩ := run_storeNode parentNode state
    refine ⟨not_obstructed_nil _ _,
      ⟨world', (state.inner.addPins [link.hash]).setEntryNode parentNode⟩, ?_, hgrows, rfl,
      NodeReplaced.root _ _ _⟩
    rw [replaceParent, if_pos relPath_nil, hrun]
    rfl
  · rw [List.concat_eq_append, List.dropLast_concat]
    obtain ⟨link, secret, world', hgrows, hload, hrun⟩ := run_storeNode parentNode state
    have hway := obstructed_dropLast_iff hgrows hparent
    rw [List.concat_eq_append, List.dropLast_concat] at hway
    rw [replaceParent, if_neg (by simp), hrun, rootDir_relPath, ← hway]
    rcases setNodeLinkAtPath_spec state.inner.entry (.dir link secret) names name world'
      with ⟨hobstructed, error, hset, -⟩ | ⟨hfree, root, rootSecret, hashes, world'',
        entry', hset, hgrows', hroot, hupdated⟩
    · left
      refine ⟨hobstructed, .error error, world', ?_, hgrows⟩
      rw [EStateM.run_bind_of_error (run_onBlobs_of_error hset)]
    · right
      refine ⟨hfree,
        ⟨world'', (state.inner.addPins (link.hash :: hashes)).setEntryNode entry'⟩, ?_,
        hgrows.trans hgrows', rfl, NodeReplaced.of_updated (hgrows'.loadNode hload) hupdated⟩
      rw [EStateM.run_bind_of_ok (run_onBlobs_of_ok hset)]
      dsimp only
      rw [EStateM.run_bind_of_ok (run_reloadRoot hroot)]
      rfl

/-! ## The tree after the removal -/

omit [LawfulPrimitives] in
theorem findLink_del_of_ne {blobs : Blobs} {node : Node} {name first : Name}
    {rest : List Name} (hne : name ≠ first) :
    findLink blobs (node.del name).2 (first :: rest) =
      findLink blobs node (first :: rest) := by
  cases rest with
  | nil => simp [findLink, Node.getLink_del, hne]
  | cons next rest => simp [findLink, Node.getLink_del, hne]

section

variable {world world' : World} {parents : List Name} {name : Name}
  {entry entry' parentNode : Node}

omit [LawfulPrimitives] in
/-- Away from the removed entry and the nodes above it the tree is as before. -/
theorem NodeReplaced.findLink_of_del {blobs : Blobs}
    (hparent : walkNode blobs entry parents = some parentNode)
    (h : NodeReplaced blobs parents (parentNode.del name).2 entry entry') {path : List Name}
    (hnotAbove : ¬ path <+: parents) (hnotBelow : ¬ parents ++ [name] <+: path) :
    findLink blobs entry' path = findLink blobs entry path := by
  by_cases hbelow : parents <+: path
  · obtain ⟨rest, rfl⟩ := hbelow
    cases rest with
    | nil => exact absurd (by simp) hnotAbove
    | cons first rest =>
        have hne : name ≠ first := by
          rintro rfl
          exact hnotBelow ⟨rest, by simp⟩
        rw [findLink_append (by simp), h.at_path, findLink_append (by simp), hparent]
        exact findLink_del_of_ne hne
  · exact h.aside path hnotAbove hbelow

omit [LawfulPrimitives] in
theorem findLink_of_removed (hsame : SameBlobs world.blobs world'.blobs entry)
    (hgrows : Grows world world') (hparent : walkNode world.blobs entry parents = some parentNode)
    (hreplaced : NodeReplaced world'.blobs parents (parentNode.del name).2 entry entry')
    {path : List Name} (hnotAbove : ¬ path <+: parents)
    (hnotBelow : ¬ parents ++ [name] <+: path) :
    findLink world'.blobs entry' path = findLink world.blobs entry path := by
  rw [hreplaced.findLink_of_del (hgrows.walkNode hparent) hnotAbove hnotBelow]
  exact hsame.findLink_eq path

omit [LawfulPrimitives] in
/-- What obstructs a path after the removal obstructed it before, or lies at the
removed entry's parent, which is now a directory. -/
theorem obstructed_of_removed_iff (hsame : SameBlobs world.blobs world'.blobs entry)
    (hgrows : Grows world world')
    (hparent : walkNode world.blobs entry parents = some parentNode)
    (hreplaced : NodeReplaced world'.blobs parents (parentNode.del name).2 entry entry')
    (hremovable : ¬ Obstructed world.blobs entry parents.dropLast)
    {names : List Name} (houtside : ¬ parents ++ [name] <+: names) :
    Obstructed world'.blobs entry' names ↔
      ∃ ancestor link, ancestor <+: names ∧ ancestor ≠ parents ∧
        findLink world.blobs entry ancestor = some link ∧
        ¬ IsLoadableDir world.blobs link := by
  constructor
  · intro ⟨ancestor, link, hpre, hlink, hbad⟩
    have hnotAbove : ¬ ancestor <+: parents := by
      intro habove
      have hne : ancestor ≠ [] := by
        intro hnil
        rw [hnil] at hlink
        contradiction
      obtain ⟨found, hfound, hgood⟩ := hreplaced.above ancestor hne habove
      rw [hlink] at hfound
      cases hfound
      exact hbad hgood
    rw [findLink_of_removed hsame hgrows hparent hreplaced hnotAbove
      (fun hbelow => houtside (hbelow.trans hpre))] at hlink
    rw [hsame.isLoadableDir_iff hlink] at hbad
    refine ⟨ancestor, link, hpre, ?_, hlink, hbad⟩
    intro heq
    exact hnotAbove (by rw [heq])
  · intro ⟨ancestor, link, hpre, hne, hlink, hbad⟩
    have hnotAbove : ¬ ancestor <+: parents := by
      intro habove
      have hparents : parents ≠ [] := by
        intro hnil
        rw [hnil, List.prefix_nil] at habove
        exact hne (habove.trans hnil.symm)
      have hproper := (prefix_dropLast_iff hparents).mpr ⟨habove, hne⟩
      exact hbad (not_obstructed_iff.mp hremovable ancestor hproper link hlink)
    refine ⟨ancestor, link, hpre, ?_, ?_⟩
    · rw [findLink_of_removed hsame hgrows hparent hreplaced hnotAbove
        (fun hbelow => houtside (hbelow.trans hpre))]
      exact hlink
    · rw [hsame.isLoadableDir_iff hlink]
      exact hbad

end

/-! ## The run of a move -/

omit [LawfulPrimitives] in
/-- On a path of names `get` returns. -/
theorem get_absPath_error {blobs : Blobs} {entry : Node} {names : List Name}
    {fault : Fault} (h : get blobs entry (absPath names) = .error fault) :
    ∃ error, fault = .error error := by
  rcases List.eq_nil_or_concat names with rfl | ⟨parents, name, rfl⟩
  · rw [get_absPath_nil] at h
    cases h
    exact ⟨_, rfl⟩
  · rw [List.concat_eq_append, get_absPath] at h
    cases hparent : getNodeAtPath blobs entry (relPath parents) with
    | error fault' =>
        simp only [hparent] at h
        cases h
        exact getNodeAtPathFrom_error hparent
    | ok parentNode =>
        simp only [hparent] at h
        cases hlink : parentNode.getLink name with
        | none =>
            simp only [hlink] at h
            cases h
            exact ⟨_, rfl⟩
        | some link =>
            simp only [hlink] at h
            contradiction

omit [LawfulPrimitives] in
/-- A move is refused with nothing changed, or it comes to the removal. -/
theorem mv_cases (state : MountState) (source target : List Name) :
    ((source <+: target ∨ (¬ ∃ link, state.get (absPath source) = .ok link) ∨
        ∃ link, state.get (absPath target) = .ok link) ∧
      ∃ fault, (mv (absPath source) (absPath target)).run state = .error fault state) ∨
    (¬ source <+: target ∧ (¬ ∃ link, state.get (absPath target) = .ok link) ∧
      ∃ parents name parentNode nodeLink, source = parents ++ [name] ∧
        walkNode state.world.blobs state.inner.entry parents = some parentNode ∧
        parentNode.getLink name = some nodeLink ∧
        (mv (absPath source) (absPath target)).run state = (do
          replaceParent state.inner.entry (relPath parents) (parentNode.del name).2
          mvInsert nodeLink (relPath source) (absPath target) (relPath target)).run
            state) := by
  unfold mv
  rw [cleanPath_absPath, cleanPath_absPath,
    EStateM.run_bind_of_ok (EStateM.run_ofExcept_ok _ _),
    EStateM.run_bind_of_ok (EStateM.run_ofExcept_ok _ _)]
  by_cases hself : source <+: target
  · left
    rw [if_pos (absPath_startsWith_iff.mpr hself)]
    exact ⟨Or.inl hself, _, rfl⟩
  rw [if_neg (absPath_startsWith_iff.not.mpr hself), run_getThe_bind]
  cases hsource : state.get (absPath source) with
  | error fault =>
      left
      rw [EStateM.run_bind_of_error (run_readBlobs_of_error hsource)]
      exact ⟨Or.inr (Or.inl (by simp)), fault, rfl⟩
  | ok nodeLink =>
      rw [EStateM.run_bind_of_ok (run_readBlobs_of_ok hsource)]
      cases htarget : state.get (absPath target) with
      | ok found =>
          left
          rw [MountState.get] at htarget
          rw [htarget]
          exact ⟨Or.inr (Or.inr ⟨found, rfl⟩), _, rfl⟩
      | error fault =>
          right
          obtain ⟨failure, rfl⟩ := get_absPath_error htarget
          rcases List.eq_nil_or_concat source with rfl | ⟨parents, name, rfl⟩
          · exact absurd List.nil_prefix hself
          rw [List.concat_eq_append] at hself hsource ⊢
          have hlink := get_eq_ok_iff.mp hsource
          rw [findLink_append_singleton] at hlink
          obtain ⟨parentNode, hparent, hname⟩ := Option.bind_eq_some_iff.mp hlink
          refine ⟨hself, by simp, parents, name, parentNode, nodeLink, rfl, hparent,
            hname, ?_⟩
          rw [MountState.get] at htarget
          rw [htarget, relPath_parent_append_singleton]
          dsimp only
          have hread : getParentNode state.world.blobs state.inner.entry
              (relPath parents) = .ok parentNode := by
            rw [getParentNode_relPath]
            exact getNodeAtPathFrom_eq_ok_iff.mpr hparent
          rw [EStateM.run_bind_of_ok (run_readBlobs_of_ok hread),
            relPath_fileName_append_singleton]
          dsimp only
          have hdel : parentNode.del name = (some nodeLink, (parentNode.del name).2) := by
            rw [← hname]
            rfl
          rw [hdel]

/-- The insertion fails in the state it finds, or the whole move succeeds. -/
theorem mvInsert_spec (nodeLink : NodeLink) (sourceClean targetClean : Path)
    (names : List Name) (name : Name) (state : MountState) :
    (Obstructed state.world.blobs state.inner.entry names ∧
      ∃ fault, (mvInsert nodeLink sourceClean (absPath (names ++ [name]))
        targetClean).run state = .error fault state) ∨
    (¬ Obstructed state.world.blobs state.inner.entry names ∧
      ∃ state', (mvInsert nodeLink sourceClean (absPath (names ++ [name]))
        targetClean).run state = .ok () state' ∧ Grows state.world state'.world ∧
        Updated state'.world.blobs nodeLink names name state.inner.entry
          state'.inner.entry) := by
  unfold mvInsert
  rw [run_getThe_bind]
  rcases setNodeLinkAtPath_spec state.inner.entry nodeLink names name state.world
    with ⟨hobstructed, error, hset, -⟩ | ⟨hfree, root, secret, hashes, world', entry',
      hset, hgrows, hroot, hupdated⟩
  · left
    rw [EStateM.run_bind_of_error (run_onBlobs_of_error hset)]
    exact ⟨hobstructed, .error error, rfl⟩
  · right
    rw [EStateM.run_bind_of_ok (run_onBlobs_of_ok hset)]
    dsimp only
    rw [EStateM.run_bind_of_ok
      (run_readBlobs_of_ok (getNodeFromBlobs_of_loadNode hroot))]
    exact ⟨hfree, _, rfl, hgrows, hupdated⟩

omit [LawfulPrimitives] in
theorem Atomic.of_ok {α : Type} {x : MountM α} {state state' : MountState} {a : α}
    (h : x.run state = .ok a state') : Atomic x state := by
  intro fault final hfail
  rw [h] at hfail
  contradiction

omit [LawfulPrimitives] in
theorem Atomic.of_grows {α : Type} {x : MountM α} {state : MountState} {fault : Fault}
    {world' : World} (hcomplete : Complete state.world.blobs state.inner.entry)
    (h : x.run state = .error fault { state with world := world' })
    (hgrows : Grows state.world world') : Atomic x state := by
  intro fault' final hfail
  rw [h] at hfail
  cases hfail
  exact ⟨SameAnswers.of_grows hcomplete hgrows, rfl⟩

omit [LawfulPrimitives] in
/-- The moved entry is not found after the removal. -/
theorem not_get_of_removed {state state' : MountState} {parents : List Name} {name : Name}
    {parentNode : Node} (hreplaced : NodeReplaced state'.world.blobs parents
      (parentNode.del name).2 state.inner.entry state'.inner.entry) :
    ¬ ∃ link, state'.get (absPath (parents ++ [name])) = .ok link := by
  intro ⟨link, hget⟩
  have hfind := get_eq_ok_iff.mp hget
  rw [findLink_append_singleton, hreplaced.at_path, Option.bind_some, Node.getLink_del,
    if_pos rfl] at hfind
  contradiction

omit [LawfulPrimitives] in
/-- For a node that reads reach, a rewrite reaches it too when the links above it
are directories. -/
theorem not_obstructed_dropLast_iff {state : MountState} {parents : List Name}
    {parentNode : Node}
    (hparent : walkNode state.world.blobs state.inner.entry parents = some parentNode) :
    ¬ Obstructed state.world.blobs state.inner.entry parents.dropLast ↔
      ∀ ancestor, ancestor <+: parents → ancestor ≠ parents →
        ∀ link, state.get (absPath ancestor) = .ok link → link.isDir = true := by
  rw [not_obstructed_iff]
  by_cases hroot : parents = []
  · subst hroot
    constructor
    · intro _ ancestor hpre hne
      exact absurd (List.prefix_nil.mp hpre) hne
    · intro _ ancestor hpre link hlink
      rw [List.dropLast_nil, List.prefix_nil] at hpre
      subst hpre
      contradiction
  · constructor
    · intro h ancestor hpre hne link hlink
      have hproper := (prefix_dropLast_iff hroot).mpr ⟨hpre, hne⟩
      exact (h ancestor hproper link (get_eq_ok_iff.mp hlink)).1
    · intro h ancestor hproper link hlink
      obtain ⟨hpre, hne⟩ := (prefix_dropLast_iff hroot).mp hproper
      exact ⟨h ancestor hpre hne link (get_eq_ok_iff.mpr hlink),
        loadNode_of_walkNode hparent hpre hlink⟩

/-- A failed move leaves the mount as it was, unless it strands the source. -/
theorem mv_atomic_iff_not_strands (state : MountState) (source target : List Name)
    (htarget : target ≠ [])
    (hcomplete : Complete state.world.blobs state.inner.entry) :
    Atomic (mv (absPath source) (absPath target)) state ↔
      ¬ Strands state source target := by
  rcases mv_cases state source target with ⟨hrefused, fault, hrun⟩ |
    ⟨houtside, hfree, parents, name, parentNode, nodeLink, hsource, hparent, hname, hrun⟩
  · have hatomic : Atomic (mv (absPath source) (absPath target)) state :=
      Atomic.of_grows hcomplete hrun (Grows.refl _)
    refine iff_of_true hatomic ?_
    intro hstrands
    rcases hrefused with hself | hmissing | htaken
    · exact hstrands.outside hself
    · exact hmissing hstrands.found
    · exact hstrands.free htaken
  · subst hsource
    obtain ⟨names, last, rfl⟩ := (List.eq_nil_or_concat target).resolve_left htarget
    rw [List.concat_eq_append] at *
    have hfound : state.get (absPath (parents ++ [name])) = .ok nodeLink := by
      apply get_eq_ok_iff.mpr
      rw [findLink_append_singleton, hparent]
      exact hname
    have houtside' : ¬ parents ++ [name] <+: names :=
      fun hpre => houtside (hpre.trans (List.prefix_append _ _))
    have hdir := @not_obstructed_dropLast_iff _ state _ _ hparent
    rcases replaceParent_spec (parentNode.del name).2 hparent with
      ⟨hobstructed, fault, world', hremove, hgrows⟩ |
      ⟨hremovable, state', hremove, hgrows, hops, hreplaced⟩
    · rw [EStateM.run_bind_of_error hremove] at hrun
      refine iff_of_true (Atomic.of_grows hcomplete hrun hgrows) ?_
      intro hstrands
      have hremovable := hstrands.removable
      rw [List.dropLast_concat] at hremovable
      exact hdir.mpr hremovable hobstructed
    · rw [EStateM.run_bind_of_ok hremove] at hrun
      have htransfer := obstructed_of_removed_iff (hcomplete.sameBlobs hgrows) hgrows hparent
        hreplaced hremovable houtside'
      rcases mvInsert_spec nodeLink (relPath (parents ++ [name]))
        (relPath (names ++ [last])) names last state' with
        ⟨hobstructed, fault, hinsert⟩ | ⟨hclear, final, hinsert, -, -⟩
      · rw [hinsert] at hrun
        apply iff_of_false
        · intro hatomic
          apply not_get_of_removed hreplaced
          refine ⟨nodeLink, ?_⟩
          rw [(hatomic fault state' hrun).1.get]
          exact hfound
        · rw [not_not]
          obtain ⟨ancestor, link, hpre, hne, hlink, hbad⟩ := htransfer.mp hobstructed
          refine ⟨houtside, ⟨nodeLink, hfound⟩, hfree, ?_, ancestor, link, ?_, ?_,
            get_eq_ok_iff.mpr hlink, hbad⟩
          · rw [List.dropLast_concat]
            exact hdir.mp hremovable
          · rw [List.dropLast_concat]
            exact hpre
          · rw [List.dropLast_concat]
            exact hne
      · rw [hinsert] at hrun
        refine iff_of_true (Atomic.of_ok hrun) ?_
        intro hstrands
        obtain ⟨ancestor, link, hpre, hne, hlink, hbad⟩ := hstrands.obstructed
        rw [List.dropLast_concat] at hpre hne
        exact hclear
          (htransfer.mpr ⟨ancestor, link, hpre, hne, get_eq_ok_iff.mp hlink, hbad⟩)

end

/-- A tree of files, none of which decodes to a node, with all their blobs. -/
theorem complete_of_files [Primitives] {blobs : Blobs} {entry : Node}
    (h : ∀ item ∈ entry.links.toList,
      (blobs item.2.link.hash).isSome = true ∧ loadNode blobs item.2 = none) :
    Complete blobs entry := by
  intro names link hlink
  cases names with
  | nil => contradiction
  | cons first rest =>
      cases hfirst : entry.getLink first with
      | none =>
          cases rest <;> simp [findLink, hfirst] at hlink
      | some found =>
          obtain ⟨hstored, hfile⟩ := h (first, found) (FinMap.get?_eq_some_iff.mp hfirst)
          cases rest with
          | nil =>
              rw [findLink, hfirst] at hlink
              cases hlink
              exact Option.isSome_iff_exists.mp hstored
          | cons next rest =>
              rw [findLink_cons (by simp), hfirst, Option.bind_some, hfile] at hlink
              contradiction

theorem not_strands_of_new [Primitives] {state : MountState} {source : List Name}
    {dir name : Name} (hnew : (state.get (absPath [dir])).toOption = none) :
    ¬ Strands state source [dir, name] := by
  intro hstrands
  obtain ⟨ancestor, link, hpre, -, hlink, -⟩ := hstrands.obstructed
  cases ancestor with
  | nil => contradiction
  | cons first rest =>
      obtain ⟨rfl, hrest⟩ := List.cons_prefix_cons.mp hpre
      rw [List.prefix_nil.mp hrest] at hlink
      rw [hlink] at hnew
      contradiction

namespace Reference

/-- A mount with the files `/a` and `/b`. -/
def twoFiles : MountState :=
  ((do
    add (absPath ["a".toList]) [1]
    add (absPath ["b".toList]) [2] : MountM Unit).run emptyMount).state

theorem complete_twoFiles : Complete twoFiles.world.blobs twoFiles.inner.entry := by
  apply complete_of_files
  decide +kernel

/-- Moving `/a` to `/b/c` fails and loses `/a`. -/
theorem mv_below_file_not_atomic :
    Complete twoFiles.world.blobs twoFiles.inner.entry ∧
      ¬ Atomic (mv (absPath ["a".toList]) (absPath ["b".toList, "c".toList])) twoFiles := by
  have hlost : ((mv (absPath ["a".toList]) (absPath ["b".toList, "c".toList])).run
      twoFiles).errorAnd (fun _ state => decide ((state.get (absPath ["a".toList])).toOption ≠
        (twoFiles.get (absPath ["a".toList])).toOption)) = true := by
    decide +kernel
  refine ⟨complete_twoFiles, ?_⟩
  intro hatomic
  obtain ⟨fault, state, hrun, hne⟩ := EStateM.Result.exists_of_errorAnd hlost
  have hsame := (hatomic fault state hrun).1.get (absPath ["a".toList])
  rw [hsame] at hne
  simp at hne

/-- A move into a directory that does not exist yet is atomic. -/
theorem mv_to_new_directory_atomic :
    Atomic (mv (absPath ["a".toList]) (absPath ["d".toList, "c".toList])) twoFiles := by
  have hnew : (twoFiles.get (absPath ["d".toList])).toOption = none := by decide +kernel
  apply (mv_atomic_iff_not_strands twoFiles ["a".toList] ["d".toList, "c".toList] (by simp)
    complete_twoFiles).mpr
  exact not_strands_of_new hnew

end Reference

end JaxFs

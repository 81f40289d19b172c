import JaxFs.MountApply
import JaxFs.StoredVersion

/-!
# What a merge does to the tree

Of the operations that win in the merged log, `apply_resolved_state` carries only the
`Mkdir`s over to the tree: it makes the directories that are missing, and removes
nothing.  So a merge leaves the tree alone exactly when every directory that wins is
there already, and a path whose winner is a `Remove` is present afterwards exactly when
it was before, or when a directory below it was made.

Lookups that run into a missing blob say nothing about the tree; the other answers of
a mount do not depend on what else the store holds.
-/

namespace JaxFs

section

variable [P : Primitives]

/-! ## Answers and missing blobs -/

/-- The lookup does not run into a missing blob. -/
def MountState.Answers (state : MountState) (path : Path) : Prop :=
  ∀ link, state.get path ≠ .error (.error (.linkNotFound link))

/-- The listing does not run into a missing blob, which it reports as a path that is
no node. -/
def MountState.Lists (state : MountState) (path : Path) : Prop :=
  ∀ path', state.ls path ≠ .error (.error (.pathNotNode path'))

/-- All that is seen of the tree is seen afterwards. -/
structure SameTree (state state' : MountState) : Prop where
  get : ∀ path, state.Answers path → state'.get path = state.get path
  ls : ∀ path, state.Lists path → state'.ls path = state.ls path

/-- A link on the way along the path has no blob. -/
def Missing (blobs : Blobs) (node : Node) (names : List Name) : Prop :=
  ∃ ancestor link, ancestor <+: names ∧ findLink blobs node ancestor = some link ∧
    blobs link.link.hash = none

theorem Grows.getNodeAtPathFrom {world world' : World} (h : Grows world world')
    {consumed path : Path} {node : Node}
    (hread : ∀ link, JaxFs.getNodeAtPathFrom world.blobs consumed node path ≠
      .error (.error (.linkNotFound link))) :
    JaxFs.getNodeAtPathFrom world'.blobs consumed node path =
      JaxFs.getNodeAtPathFrom world.blobs consumed node path := by
  induction path generalizing consumed node with
  | nil => rfl
  | cons part rest ih =>
      rw [JaxFs.getNodeAtPathFrom] at hread
      rw [JaxFs.getNodeAtPathFrom, JaxFs.getNodeAtPathFrom]
      cases hlink : node.getLink part.toName with
      | none => rfl
      | some link =>
          rw [hlink] at hread
          dsimp only at hread ⊢
          cases hblob : world.blobs link.link.hash with
          | none =>
              have hmissing : JaxFs.getNodeFromBlobs world.blobs link =
                  .error (.error (.linkNotFound link.link)) := by
                simp [JaxFs.getNodeFromBlobs, hblob]
              rw [hmissing] at hread
              exact absurd rfl (hread link.link)
          | some blob =>
              rw [h.getNodeFromBlobs hblob]
              cases hload : JaxFs.getNodeFromBlobs world.blobs link with
              | error fault => rfl
              | ok child =>
                  rw [hload] at hread
                  exact ih hread

/-- A lookup that answers does not see the store grow. -/
theorem Grows.get {world world' : World} (h : Grows world world') {entry : Node} {path : Path}
    (hanswers : ∀ link, JaxFs.get world.blobs entry path ≠
      .error (.error (.linkNotFound link))) :
    JaxFs.get world'.blobs entry path = JaxFs.get world.blobs entry path := by
  unfold JaxFs.get at hanswers ⊢
  simp only [bind, Except.bind] at hanswers ⊢
  cases hclean : cleanPath path with
  | error fault => rfl
  | ok cleaned =>
      rw [hclean] at hanswers
      dsimp only at hanswers ⊢
      cases hsplit : parentAndName cleaned with
      | error fault => rfl
      | ok split =>
          rw [hsplit] at hanswers
          cases split with
          | none => rfl
          | some split =>
              obtain ⟨parentPath, name⟩ := split
              dsimp only at hanswers ⊢
              have hparent : getParentNode world'.blobs entry parentPath =
                  getParentNode world.blobs entry parentPath := by
                unfold getParentNode getNodeAtPath at hanswers ⊢
                split_ifs at hanswers ⊢ with hroot
                · rfl
                · apply h.getNodeAtPathFrom
                  intro link hlink
                  rw [hlink] at hanswers
                  exact hanswers link rfl
              rw [hparent]

theorem Grows.ls {world world' : World} (h : Grows world world') {entry : Node} {path : Path}
    (hlists : ∀ path', JaxFs.ls world.blobs entry path ≠
      .error (.error (.pathNotNode path'))) :
    JaxFs.ls world'.blobs entry path = JaxFs.ls world.blobs entry path := by
  unfold JaxFs.ls at hlists ⊢
  simp only [bind, Except.bind] at hlists ⊢
  cases hclean : cleanPath path with
  | error fault => rfl
  | ok cleaned =>
      rw [hclean] at hlists
      dsimp only at hlists ⊢
      split_ifs at hlists ⊢ with hroot
      · rfl
      · have hnode : JaxFs.getNodeAtPath world'.blobs entry cleaned =
            JaxFs.getNodeAtPath world.blobs entry cleaned := by
          apply h.getNodeAtPathFrom
          intro link hlink
          rw [getNodeAtPath, hlink] at hlists
          exact hlists cleaned rfl
        rw [hnode]

/-- A mount whose tree is left alone shows it as before. -/
theorem SameTree.of_grows {state state' : MountState} (hgrows : Grows state.world state'.world)
    (hentry : state'.inner.entry = state.inner.entry) : SameTree state state' := by
  constructor
  · intro path hanswers
    unfold MountState.get
    rw [hentry]
    exact hgrows.get hanswers
  · intro path hlists
    unfold MountState.ls
    rw [hentry]
    exact hgrows.ls hlists

theorem linkNotFound_iff_missing {blobs : Blobs} (consumed : Path) {node : Node}
    {names : List Name} :
    (∃ link, getNodeAtPathFrom blobs consumed node (relPath names) =
      .error (.error (.linkNotFound link))) ↔ Missing blobs node names := by
  induction names generalizing consumed node with
  | nil =>
      constructor
      · rintro ⟨link, hlink⟩
        contradiction
      · rintro ⟨ancestor, link, hpre, hlink, _⟩
        exact absurd (List.prefix_nil.mp hpre) (findLink_ne_nil hlink)
  | cons name names ih =>
      unfold Missing
      rw [exists_onWay_cons_iff, relPath_cons, getNodeAtPathFrom, Component.toName]
      cases hlink : node.getLink name with
      | none => simp
      | some link =>
          dsimp only
          cases hblob : blobs link.link.hash with
          | none => simp [getNodeFromBlobs, hblob]
          | some blob =>
              have hstored : ∀ missing, getNodeFromBlobs blobs link ≠
                  .error (.error (.linkNotFound missing)) := by
                intro missing
                unfold getNodeFromBlobs
                rw [hblob]
                dsimp only
                split
                · simp
                · split
                  · simp
                  · simp
              cases hload : getNodeFromBlobs blobs link with
              | error fault =>
                  have hnone : loadNode blobs link = none := by
                    rw [loadNode, hload]
                    rfl
                  constructor
                  · rintro ⟨missing, hmissing⟩
                    exact absurd (hload.trans hmissing) (hstored missing)
                  · rintro ⟨found, hfound, hcases⟩
                    cases hfound
                    rcases hcases with hbad | ⟨child, hchild, -⟩
                    · rw [hblob] at hbad
                      contradiction
                    · rw [hnone] at hchild
                      contradiction
              | ok child =>
                  have hsome : loadNode blobs link = some child := by
                    rw [loadNode, hload]
                    rfl
                  dsimp only
                  rw [ih]
                  constructor
                  · intro hmissing
                    exact ⟨link, rfl, Or.inr ⟨child, hsome, hmissing⟩⟩
                  · rintro ⟨found, hfound, hcases⟩
                    cases hfound
                    rcases hcases with hbad | ⟨child', hchild, hmissing⟩
                    · rw [hblob] at hbad
                      contradiction
                    · rw [hsome] at hchild
                      cases hchild
                      exact hmissing

theorem answers_iff {state : MountState} {parents : List Name} {name : Name} :
    state.Answers (absPath (parents ++ [name])) ↔
      ¬ Missing state.world.blobs state.inner.entry parents := by
  rw [← linkNotFound_iff_missing [.rootDir]]
  unfold MountState.Answers MountState.get
  rw [get_absPath, not_exists]
  unfold getNodeAtPath
  cases getNodeAtPathFrom state.world.blobs [.rootDir] state.inner.entry (relPath parents) with
  | error fault => simp
  | ok parent =>
      dsimp only
      cases parent.getLink name <;> simp

/-- The root is at hand. -/
theorem answers_singleton (state : MountState) (name : Name) :
    state.Answers (absPath [name]) := by
  rw [show [name] = [] ++ [name] from rfl, answers_iff]
  intro ⟨ancestor, link, hpre, hlink, _⟩
  exact findLink_ne_nil hlink (List.prefix_nil.mp hpre)

theorem Grows.findLink_eq {world world' : World} (h : Grows world world') {node : Node}
    {parents : List Name} (hstored : ¬ Missing world.blobs node parents) (name : Name) :
    JaxFs.findLink world'.blobs node (parents ++ [name]) =
      JaxFs.findLink world.blobs node (parents ++ [name]) := by
  have hread : ∀ link, JaxFs.getNodeAtPathFrom world.blobs [.rootDir] node (relPath parents) ≠
      .error (.error (.linkNotFound link)) :=
    fun link hlink => hstored ((linkNotFound_iff_missing _).mp ⟨link, hlink⟩)
  have hwalk : JaxFs.walkNode world'.blobs node parents =
      JaxFs.walkNode world.blobs node parents := by
    apply Option.ext
    intro child
    have hlater := @getNodeAtPathFrom_eq_ok_iff _ world'.blobs [.rootDir] node child parents
    have hbefore := @getNodeAtPathFrom_eq_ok_iff _ world.blobs [.rootDir] node child parents
    rw [← hlater, ← hbefore, h.getNodeAtPathFrom hread]
  rw [findLink_append_singleton, findLink_append_singleton, hwalk]

/-! ## One operation -/

/-- The operation makes a directory when it is applied. -/
def PathOperation.MakesDir (op : PathOperation) : Prop :=
  op.contentLink.isSome = false ∧ op.isDir = true ∧ op.opType = .mkdir

theorem mkdir_of_get {state : MountState} {path : Path} {link : NodeLink}
    (h : state.get path = .ok link) :
    ∃ taken, (mkdir path).run state = .error (.error (.pathAlreadyExists taken)) state := by
  unfold MountState.get JaxFs.get at h
  obtain ⟨cleaned, hclean, h⟩ := Except.bind_eq_ok_iff.mp h
  obtain ⟨split, hsplit, h⟩ := Except.bind_eq_ok_iff.mp h
  cases split with
  | none => contradiction
  | some split =>
      obtain ⟨parentPath, name⟩ := split
      obtain ⟨parentNode, hparent, h⟩ := Except.bind_eq_ok_iff.mp h
      have hmkdir : mkdirParent state.world.blobs state.inner.entry parentPath =
          .ok parentNode := by
        unfold mkdirParent getParentNode at *
        split_ifs at hparent ⊢ with hroot
        · exact hparent
        · rw [hparent]
      have hname : (parentNode.getLink name).isSome = true := by
        cases hlink : parentNode.getLink name with
        | none =>
            rw [hlink] at h
            contradiction
        | some found => rfl
      unfold mkdir
      rw [hclean, EStateM.run_bind_of_ok (EStateM.run_ofExcept_ok _ _), run_getThe_bind, hsplit,
        EStateM.run_bind_of_ok (EStateM.run_ofExcept_ok _ _)]
      dsimp only
      rw [EStateM.run_bind_of_ok (run_readBlobs_of_ok hmkdir), if_pos hname]
      exact ⟨_, rfl⟩

/-- An operation that finds its directory leaves the tree alone. -/
theorem applyResolved_kept {path : Path} {op : PathOperation} {state state' : MountState}
    (hpresent : op.MakesDir → ∃ link, state.get (Path.join [.rootDir] path) = .ok link)
    (hrun : (applyResolved path op).run state = .ok () state') :
    state'.world = state.world ∧ state'.inner.entry = state.inner.entry := by
  unfold applyResolved at hrun
  dsimp only at hrun
  by_cases hcontent : op.contentLink.isSome = true
  · rw [if_pos hcontent, run_getThe_bind] at hrun
    split at hrun
    · cases hrun
      exact ⟨rfl, rfl⟩
    · cases hrun
      exact ⟨rfl, rfl⟩
    · contradiction
  · rw [if_neg hcontent] at hrun
    by_cases hmkdir : op.isDir = true ∧ op.opType = .mkdir
    · obtain ⟨link, hlink⟩ := hpresent ⟨by simpa using hcontent, hmkdir⟩
      obtain ⟨taken, htaken⟩ := mkdir_of_get hlink
      rw [if_pos hmkdir, run_mkdirIfMissing, htaken] at hrun
      cases hrun
      exact ⟨rfl, rfl⟩
    · rw [if_neg hmkdir] at hrun
      cases hrun
      exact ⟨rfl, rfl⟩

variable [LawfulPrimitives]

/-- An operation on a path of names finds its directory, or makes it. -/
theorem applyResolved_tree {parents : List Name} {name : Name} {op : PathOperation}
    {state state' : MountState}
    (hrun : (applyResolved (relPath (parents ++ [name])) op).run state = .ok () state') :
    (state'.world = state.world ∧ state'.inner.entry = state.inner.entry ∧
      (op.MakesDir → ∃ link, findLink state.world.blobs state.inner.entry
        (parents ++ [name]) = some link)) ∨
    (op.MakesDir ∧ DirMade state.world state.inner.entry parents name state'.world
      state'.inner.entry) := by
  by_cases hmakes : op.MakesDir
  · rcases mkdir_spec parents name state with ⟨⟨link, hfound⟩, -⟩ |
      ⟨-, -, error, world', hmkdir, hother⟩ | ⟨made, hmkdir, hmade, -, -⟩
    · left
      have hget : state.get (Path.join [.rootDir] (relPath (parents ++ [name]))) =
          .ok link := by
        rw [join_relPath]
        exact get_eq_ok_iff.mpr hfound
      obtain ⟨hworld, hentry⟩ := applyResolved_kept (fun _ => ⟨link, hget⟩) hrun
      exact ⟨hworld, hentry, fun _ => ⟨link, hfound⟩⟩
    · exfalso
      unfold applyResolved at hrun
      dsimp only at hrun
      rw [if_neg (by simp [hmakes.1]), if_pos hmakes.2, join_relPath, run_mkdirIfMissing,
        hmkdir] at hrun
      cases error with
      | pathAlreadyExists path => contradiction
      | _ => contradiction
    · right
      unfold applyResolved at hrun
      dsimp only at hrun
      rw [if_neg (by simp [hmakes.1]), if_pos hmakes.2, join_relPath, run_mkdirIfMissing,
        hmkdir] at hrun
      cases hrun
      exact ⟨hmakes, hmade⟩
  · left
    obtain ⟨hworld, hentry⟩ := applyResolved_kept (fun h => absurd h hmakes) hrun
    exact ⟨hworld, hentry, fun h => absurd h hmakes⟩

/-! ## All operations -/

omit P [LawfulPrimitives] in
theorem NamePaths.cons {path : Path} {op : PathOperation}
    {rest : List (Path × PathOperation)} (h : NamePaths ((path, op) :: rest)) :
    (∃ parents name, path = relPath (parents ++ [name])) ∧ NamePaths rest := by
  constructor
  · obtain ⟨names, hnames, hpath⟩ := h (path, op) List.mem_cons_self
    obtain ⟨parents, name, rfl⟩ := (List.eq_nil_or_concat names).resolve_left hnames
    rw [List.concat_eq_append] at hpath
    exact ⟨parents, name, hpath⟩
  · exact fun item hitem => h item (List.mem_cons_of_mem _ hitem)

/-- A merge that succeeds has applied the merged log, and then stored the version. -/
theorem applyResolvedState_of_mergeFrom {fuel : ℕ} {incoming : MountInner}
    {resolver : ConflictResolver} {state state' : MountState} {result : MergeResult × Link}
    {mergedOps : PathOpLog} {mergeResult : MergeResult}
    (hhistories : mergeHistories state.inner incoming state.world.blobs fuel resolver =
      .ok (mergedOps, mergeResult))
    (hrun : (mergeFrom fuel incoming resolver).run state = .ok result state') :
    ∃ applied, (applyResolvedState mergedOps).run state = .ok () applied ∧
      Grows applied.world state'.world ∧ state'.inner.entry = applied.inner.entry := by
  unfold mergeFrom at hrun
  rw [run_getThe_bind, hhistories,
    EStateM.run_bind_of_ok (EStateM.run_ofExcept_ok _ _)] at hrun
  dsimp only at hrun
  obtain ⟨_, applied, happly, hrun⟩ := EStateM.run_bind_eq_ok_iff.mp hrun
  obtain ⟨_, middle, hmodify, hrun⟩ := EStateM.run_bind_eq_ok_iff.mp hrun
  obtain ⟨saved, last, hsave, hdone⟩ := EStateM.run_bind_eq_ok_iff.mp hrun
  cases hmodify
  cases hdone
  have hgrows := (mountGrows_save false).of_ok hsave
  obtain ⟨manifest, world', -, -, rfl⟩ := run_save_eq_ok hsave
  exact ⟨applied, happly, hgrows, rfl⟩

/-- A merge whose operations can be applied is stored when the owners can be given the
new secret, and what is then in the tree stays there. -/
theorem exists_mergeFrom {fuel : ℕ} {incoming : MountInner} {resolver : ConflictResolver}
    {state applied : MountState} {mergedOps : PathOpLog} {mergeResult : MergeResult}
    (hhistories : mergeHistories state.inner incoming state.world.blobs fuel resolver =
      .ok (mergedOps, mergeResult))
    (happly : (applyResolvedState mergedOps).run state = .ok () applied)
    (hwrappable : Wrappable applied.inner.manifest) :
    ∃ result state', (mergeFrom fuel incoming resolver).run state = .ok result state' ∧
      ∀ names link, applied.get (absPath names) = .ok link →
        state'.get (absPath names) = .ok link := by
  let merged : MountState := ⟨applied.world, { applied.inner with
    opsLog := (applied.inner.opsLog.merge mergedOps).1 }⟩
  obtain ⟨saved, state', hsave⟩ := @exists_save _ _ merged hwrappable false
  have hrun : (mergeFrom fuel incoming resolver).run state =
      .ok (mergeResult, saved.1) state' := by
    unfold mergeFrom
    rw [run_getThe_bind, hhistories, EStateM.run_bind_of_ok (EStateM.run_ofExcept_ok _ _)]
    dsimp only
    rw [EStateM.run_bind_of_ok happly, EStateM.run_bind_of_ok (show (modifyInner _).run
      applied = .ok () merged from rfl), EStateM.run_bind_of_ok hsave]
    rfl
  refine ⟨_, state', hrun, ?_⟩
  intro names link hlink
  have hgrows := (mountGrows_save false).of_ok hsave
  obtain ⟨manifest, world', -, -, rfl⟩ := run_save_eq_ok hsave
  exact get_eq_ok_iff.mpr (hgrows.findLink (get_eq_ok_iff.mp hlink))

omit P [LawfulPrimitives] in
/-- The directories to be made are among those that `resolve_all` has. -/
theorem PathOpLog.mem_resolveAll_iff {log : PathOpLog} {path : Path} {op : PathOperation}
    (hmakes : op.MakesDir) :
    (path, op) ∈ log.resolveAll.toList ↔ log.resolvePath path = some op := by
  have hkept : op.opType ≠ .remove := by
    rw [hmakes.2.2]
    simp
  have hget : log.resolveAll.get? path = some op ↔ (path, op) ∈ log.resolveAll.toList :=
    FinMap.get?_eq_some_iff
  rw [← hget, PathOpLog.get?_resolveAll]
  simp [hkept]

omit [LawfulPrimitives] in
theorem Missing.mono {blobs : Blobs} {node : Node} {names longer : List Name}
    (h : Missing blobs node names) (hpre : names <+: longer) : Missing blobs node longer := by
  obtain ⟨ancestor, link, habove, hlink, hblob⟩ := h
  exact ⟨ancestor, link, habove.trans hpre, hlink, hblob⟩

omit [LawfulPrimitives] in
/-- A new directory is stored, and so are those on the way to it. -/
theorem DirMade.missing {world world' : World} {entry entry' : Node} {parents : List Name}
    {name : Name} (h : DirMade world entry parents name world' entry') {names : List Name}
    (hmissing : Missing world'.blobs entry' names) : Missing world.blobs entry names := by
  have hdir : ∀ link, IsLoadableDir world'.blobs link →
      ¬ world'.blobs link.link.hash = none := by
    intro link hdir hnone
    obtain ⟨node, hload⟩ := Option.isSome_iff_exists.mp hdir.2
    obtain ⟨blob, hblob⟩ := stored_of_loadNode hload
    rw [hnone] at hblob
    contradiction
  obtain ⟨ancestor, link, hpre, hlink, hnone⟩ := h.exists_onWay hdir hmissing
  by_contra hstored
  obtain ⟨above, last, rfl⟩ := (List.eq_nil_or_concat ancestor).resolve_left
    (findLink_ne_nil hlink)
  rw [List.concat_eq_append] at hlink hpre
  have habove : ¬ Missing world.blobs entry above := fun hbad =>
    hstored (hbad.mono ((List.prefix_append _ _).trans hpre))
  rw [h.grows.findLink_eq habove] at hlink
  have hbefore : world.blobs link.link.hash = none := by
    cases hblob : world.blobs link.link.hash with
    | none => rfl
    | some blob =>
        rw [h.grows.blobs _ _ hblob] at hnone
        contradiction
  exact hstored ⟨_, link, hpre, hlink, hbefore⟩

omit [LawfulPrimitives] in
/-- A path is there after a directory was made when it was before, or when it is on
the way to the directory. -/
theorem DirMade.found_iff {world world' : World} {entry entry' : Node} {parents : List Name}
    {name : Name} (h : DirMade world entry parents name world' entry') {above : List Name}
    (last : Name) (hstored : ¬ Missing world.blobs entry above) :
    (∃ link, findLink world'.blobs entry' (above ++ [last]) = some link) ↔
      (∃ link, findLink world.blobs entry (above ++ [last]) = some link) ∨
        above ++ [last] <+: parents ++ [name] := by
  constructor
  · intro ⟨link, hlink⟩
    rcases h.findLink_cases (above ++ [last]) with ⟨hpre, -⟩ | ⟨-, hnone⟩ | hsame
    · exact Or.inr hpre
    · rw [hlink] at hnone
      contradiction
    · left
      rw [hlink, h.grows.findLink_eq hstored] at hsame
      exact ⟨link, hsame.symm⟩
  · intro hcases
    rcases hcases with ⟨link, hlink⟩ | hpre
    · exact h.found hlink
    · obtain ⟨link, hlink, -⟩ := h.dir_of_prefix (by simp) hpre
      exact ⟨link, hlink⟩

/-- A path is there after all operations when it was before, or when it is on the way
to one of the directories. -/
theorem applyAll_found_iff {resolved : List (Path × PathOperation)}
    (hpaths : NamePaths resolved) {state state' : MountState}
    (hrun : (applyAll resolved).run state = .ok () state') {above : List Name} (last : Name)
    (hstored : ¬ Missing state.world.blobs state.inner.entry above) :
    ¬ Missing state'.world.blobs state'.inner.entry above ∧
    ((∃ link, findLink state'.world.blobs state'.inner.entry (above ++ [last]) = some link) ↔
      (∃ link, findLink state.world.blobs state.inner.entry (above ++ [last]) = some link) ∨
        ∃ names op, (relPath names, op) ∈ resolved ∧ op.MakesDir ∧
          above ++ [last] <+: names) := by
  induction resolved generalizing state with
  | nil =>
      cases hrun
      refine ⟨hstored, ?_⟩
      simp
  | cons first rest ih =>
      obtain ⟨path, op⟩ := first
      obtain ⟨⟨parents, name, rfl⟩, hrest⟩ := hpaths.cons
      rw [applyAll] at hrun
      obtain ⟨_, middle, hfirst, hrun⟩ := EStateM.run_bind_eq_ok_iff.mp hrun
      -- what the first operation does to the path
      have hmiddle : ¬ Missing middle.world.blobs middle.inner.entry above ∧
          ((∃ link, findLink middle.world.blobs middle.inner.entry (above ++ [last]) =
              some link) ↔
            (∃ link, findLink state.world.blobs state.inner.entry (above ++ [last]) =
              some link) ∨ op.MakesDir ∧ above ++ [last] <+: parents ++ [name]) := by
        rcases applyResolved_tree hfirst with ⟨hworld, hentry, hfound⟩ | ⟨hmakes, hmade⟩
        · rw [hworld, hentry]
          refine ⟨hstored, ?_⟩
          constructor
          · exact Or.inl
          · intro hcases
            rcases hcases with hbefore | ⟨hmakes, hpre⟩
            · exact hbefore
            · obtain ⟨link, hlink⟩ := hfound hmakes
              exact findLink_of_prefix hlink (by simp) hpre
        · refine ⟨fun hmissing => hstored (hmade.missing hmissing), ?_⟩
          rw [hmade.found_iff last hstored]
          simp [hmakes]
      obtain ⟨hlater, hiff⟩ := ih hrest hrun hmiddle.1
      refine ⟨hlater, ?_⟩
      rw [hiff, hmiddle.2]
      constructor
      · intro hcases
        rcases hcases with (hbefore | ⟨hmakes, hpre⟩) | ⟨names, other, hmem, hmakes, hpre⟩
        · exact Or.inl hbefore
        · exact Or.inr ⟨parents ++ [name], op, List.mem_cons_self, hmakes, hpre⟩
        · exact Or.inr ⟨names, other, List.mem_cons_of_mem _ hmem, hmakes, hpre⟩
      · intro hcases
        rcases hcases with hbefore | ⟨names, other, hmem, hmakes, hpre⟩
        · exact Or.inl (Or.inl hbefore)
        · rcases List.mem_cons.mp hmem with heq | hlater
          · obtain ⟨hpath, rfl⟩ := Prod.mk.inj heq
            rw [relPath_injective hpath] at hpre
            exact Or.inl (Or.inr ⟨hmakes, hpre⟩)
          · exact Or.inr ⟨names, other, hlater, hmakes, hpre⟩

/-- Every path in the log is a nonempty one of names. -/
def PathOpLog.Named (log : PathOpLog) : Prop :=
  ∀ op ∈ log, ∃ names, names ≠ [] ∧ op.path = relPath names

/-- The winner of the path is a `Remove`. -/
def PathOpLog.Removes (log : PathOpLog) (names : List Name) : Prop :=
  ∃ op, log.resolvePath (relPath names) = some op ∧ op.opType = .remove

/-- The winner of the path makes a directory. -/
def PathOpLog.Makes (log : PathOpLog) (names : List Name) : Prop :=
  ∃ op, log.resolvePath (relPath names) = some op ∧ op.MakesDir

omit P [LawfulPrimitives] in
theorem PathOpLog.Named.namePaths {log : PathOpLog} (h : log.Named) :
    NamePaths log.resolveAll.toList := by
  intro item hitem
  obtain ⟨hwins, -⟩ := PathOpLog.get?_resolveAll.mp (FinMap.get?_eq_some_iff.mpr hitem)
  obtain ⟨hmem, hpath, -⟩ := PathOpLog.resolvePath_eq_some_iff.mp hwins
  rw [← hpath]
  exact h item.2 hmem

/-- After a merge no removed path is in the tree exactly when none was before, and no
directory is to be made at or below one: the merge makes directories and removes
nothing. -/
theorem mergeFrom_removed_iff {fuel : ℕ} {incoming : MountInner} {state state' : MountState}
    {result : MergeResult × Link} {mergedOps : PathOpLog} {mergeResult : MergeResult}
    (hhistories : mergeHistories state.inner incoming state.world.blobs fuel lastWriteWins =
      .ok (mergedOps, mergeResult))
    (hnamed : mergedOps.Named)
    (hanswers : ∀ names, mergedOps.Removes names → state.Answers (absPath names))
    (hrun : (mergeFrom fuel incoming lastWriteWins).run state = .ok result state') :
    (∀ names, mergedOps.Removes names → ∀ link, state'.get (absPath names) ≠ .ok link) ↔
      ∀ names, mergedOps.Removes names →
        (∀ link, state.get (absPath names) ≠ .ok link) ∧
        ∀ below, mergedOps.Makes below → ¬ names <+: below := by
  obtain ⟨applied, happly, hgrows, hentry⟩ := applyResolvedState_of_mergeFrom hhistories hrun
  -- what the merge does to one removed path
  have hpath : ∀ names, mergedOps.Removes names →
      ((∃ link, state'.get (absPath names) = .ok link) ↔
        (∃ link, state.get (absPath names) = .ok link) ∨
          ∃ below, mergedOps.Makes below ∧ names <+: below) := by
    intro names hremoves
    have hanswer := hanswers names hremoves
    obtain ⟨op, hwins, -⟩ := hremoves
    obtain ⟨hmem, hop, -⟩ := PathOpLog.resolvePath_eq_some_iff.mp hwins
    obtain ⟨names', hnil, hnames⟩ := hnamed op hmem
    have heq : names = names' := relPath_injective (hop.symm.trans hnames)
    rw [← heq] at hnil
    obtain ⟨above, last, rfl⟩ := (List.eq_nil_or_concat names).resolve_left hnil
    rw [List.concat_eq_append] at hanswer ⊢
    obtain ⟨hstored, hiff⟩ := applyAll_found_iff hnamed.namePaths happly last
      (answers_iff.mp hanswer)
    unfold MountState.get
    simp only [get_eq_ok_iff]
    rw [hentry, hgrows.findLink_eq hstored, hiff]
    constructor
    · intro hcases
      rcases hcases with hbefore | ⟨below, made, hmade, hmakes, hpre⟩
      · exact Or.inl hbefore
      · have hwinner := (PathOpLog.mem_resolveAll_iff hmakes).mp hmade
        exact Or.inr ⟨below, ⟨made, hwinner, hmakes⟩, hpre⟩
    · intro hcases
      rcases hcases with hbefore | ⟨below, ⟨made, hwinner, hmakes⟩, hpre⟩
      · exact Or.inl hbefore
      · have hmade := (PathOpLog.mem_resolveAll_iff hmakes).mpr hwinner
        exact Or.inr ⟨below, made, hmade, hmakes, hpre⟩
  constructor
  · intro hgone names hremoves
    constructor
    · intro link hlink
      obtain ⟨link', hlink'⟩ := (hpath names hremoves).mpr (Or.inl ⟨link, hlink⟩)
      exact hgone names hremoves link' hlink'
    · intro below hmakes hpre
      obtain ⟨link', hlink'⟩ := (hpath names hremoves).mpr (Or.inr ⟨below, hmakes, hpre⟩)
      exact hgone names hremoves link' hlink'
  · intro hcond names hremoves link hlink
    obtain ⟨hbefore, hbelow⟩ := hcond names hremoves
    rcases (hpath names hremoves).mp ⟨link, hlink⟩ with ⟨link', hlink'⟩ |
      ⟨below, hmakes, hpre⟩
    · exact hbefore link' hlink'
    · exact hbelow below hmakes hpre

end

namespace Reference

theorem wrappable (manifest : Manifest) : Wrappable manifest := fun _ _ _ => rfl

/-- A bucket with a directory and a second owner, saved. -/
def sharedMount : MountState :=
  let work : MountM (Link × Link × ℕ) := do
    mkdir (absPath ["a".toList])
    addOwner (primitives.publicKey bob)
    save false
  (work.run freshMount).state

/-- The second owner has loaded the version and removed the directory. -/
def bobRemoved : MountState :=
  ((rm (absPath ["a".toList])).run ⟨sharedMount.world, { sharedMount.inner with
    peerId := primitives.publicKey bob
    secretKey := bob }⟩).state

/-- The first owner is still at the version. -/
def aliceBeside : MountState := ⟨bobRemoved.world, sharedMount.inner⟩

set_option maxRecDepth 100000 in
/-- The directory that the other owner removed is still there. -/
theorem removed_directory_stays :
    ∃ mergedOps mergeResult result state',
      mergeHistories aliceBeside.inner bobRemoved.inner
        aliceBeside.world.blobs 2 lastWriteWins = .ok (mergedOps, mergeResult) ∧
      (mergeFrom 2 bobRemoved.inner lastWriteWins).run aliceBeside =
        .ok result state' ∧
      mergedOps.Removes ["a".toList] ∧
      ∃ link, state'.get (absPath ["a".toList]) = .ok link := by
  have hfacts : (mergeHistories aliceBeside.inner bobRemoved.inner
      aliceBeside.world.blobs 2 lastWriteWins).toOption.map (fun merged =>
        ((merged.1.resolvePath (relPath ["a".toList])).map PathOperation.opType,
          ((applyResolvedState merged.1).run aliceBeside).okAnd (fun applied =>
            (applied.get (absPath ["a".toList])).toOption.isSome))) =
              some (some .remove, true) := by
    decide +kernel
  generalize aliceBeside = state at *
  generalize bobRemoved = incoming at *
  obtain ⟨⟨mergedOps, mergeResult⟩, hmerged, hpair⟩ := Option.map_eq_some_iff.mp hfacts
  obtain ⟨hwinner, hok⟩ := Prod.mk.inj hpair
  obtain ⟨op, hop, htype⟩ := Option.map_eq_some_iff.mp hwinner
  obtain ⟨_, applied, happly, hthere⟩ := EStateM.Result.exists_of_okAnd hok
  obtain ⟨link, hlink⟩ := Option.isSome_iff_exists.mp hthere
  have hhistories := Except.eq_ok_of_toOption hmerged
  obtain ⟨result, state', hrun, hkeeps⟩ := exists_mergeFrom hhistories happly (wrappable _)
  exact ⟨mergedOps, mergeResult, result, state', hhistories, hrun, ⟨op, hop, htype⟩, link,
    hkeeps _ link (Except.eq_ok_of_toOption hlink)⟩

/-- A mount of the new bucket in which a directory has come and gone. -/
def comeAndGo : MountState :=
  let work : MountM Unit := do
    mkdir (absPath ["b".toList])
    rm (absPath ["b".toList])
  (work.run freshMount).state

/-- Another mount of the new bucket. -/
def besideComeAndGo : MountState := ⟨comeAndGo.world, freshMount.inner⟩

set_option maxRecDepth 100000 in
theorem comeAndGo_removed :
    ∃ mergedOps mergeResult result state',
      mergeHistories besideComeAndGo.inner comeAndGo.inner
        besideComeAndGo.world.blobs 1 lastWriteWins = .ok (mergedOps, mergeResult) ∧
      (mergeFrom 1 comeAndGo.inner lastWriteWins).run besideComeAndGo =
        .ok result state' ∧
      mergedOps.Removes ["b".toList] ∧
      ∀ names, mergedOps.Removes names → ∀ link, state'.get (absPath names) ≠ .ok link := by
  have hfacts : (mergeHistories besideComeAndGo.inner comeAndGo.inner
        besideComeAndGo.world.blobs 1 lastWriteWins).toOption.map (fun merged =>
          ((merged.1.operations.toList.all (fun op =>
              decide (op.path = relPath ["b".toList])),
            (merged.1.resolvePath (relPath ["b".toList])).map PathOperation.opType),
            ((applyResolvedState merged.1).run besideComeAndGo).okAnd
              (fun _ => true))) = some ((true, some .remove), true) ∧
      (besideComeAndGo.get (absPath ["b".toList])).toOption = none := by
    decide +kernel
  generalize besideComeAndGo = state at *
  generalize comeAndGo = incoming at *
  obtain ⟨hmerge, hbefore⟩ := hfacts
  obtain ⟨⟨mergedOps, mergeResult⟩, hmerged, hpair⟩ := Option.map_eq_some_iff.mp hmerge
  obtain ⟨hpair, hok⟩ := Prod.mk.inj hpair
  obtain ⟨hall, hwinner⟩ := Prod.mk.inj hpair
  obtain ⟨_, applied, happly, -⟩ := EStateM.Result.exists_of_okAnd hok
  obtain ⟨winner, hwins, htype⟩ := Option.map_eq_some_iff.mp hwinner
  have hpaths : ∀ op ∈ mergedOps, op.path = relPath ["b".toList] := by
    intro op hop
    exact of_decide_eq_true (List.all_eq_true.mp hall op hop)
  have honly : ∀ names op, mergedOps.resolvePath (relPath names) = some op →
      names = ["b".toList] ∧ op = winner := by
    intro names op hop
    obtain ⟨hmem, hpath, -⟩ := PathOpLog.resolvePath_eq_some_iff.mp hop
    have hnames := relPath_injective (hpath.symm.trans (hpaths op hmem))
    rw [hnames, hwins] at hop
    exact ⟨hnames, (Option.some.inj hop).symm⟩
  have hhistories := Except.eq_ok_of_toOption hmerged
  obtain ⟨result, state', hrun, -⟩ := exists_mergeFrom hhistories happly (wrappable _)
  refine ⟨mergedOps, mergeResult, result, state', hhistories, hrun, ⟨winner, hwins, htype⟩, ?_⟩
  apply (mergeFrom_removed_iff hhistories ?_ ?_ hrun).mpr
  · intro names ⟨op, hop, _⟩
    obtain ⟨rfl, -⟩ := honly names op hop
    constructor
    · intro link hlink
      rw [hlink] at hbefore
      contradiction
    · intro below ⟨made, hmade, hmakes⟩
      obtain ⟨-, rfl⟩ := honly below made hmade
      rw [hmakes.2.2] at htype
      contradiction
  · exact fun op hop => ⟨["b".toList], by simp, hpaths op hop⟩
  · intro names ⟨op, hop, _⟩
    obtain ⟨rfl, -⟩ := honly names op hop
    exact answers_singleton _ _

end Reference

end JaxFs

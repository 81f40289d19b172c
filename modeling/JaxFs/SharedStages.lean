import JaxFs.SharedEdits

/-!
# The stages of an edit

Every edit goes through stages between its turns, from the call to its return.  A turn
that finds the mount undisturbed takes its edit to the next stage or makes it fail, and
it leaves the stages of the edits on disjoint paths as they are.
-/

namespace JaxFs

section

variable [P : Primitives]

/-! ## Turns -/

namespace Task

/-- The draft that the next turn writes back. -/
def draft? : Task → Option Draft
  | .addDrafted _ _ draft => some draft
  | .rmDrafted _ _ draft => some draft
  | .mkdirDrafted _ draft => some draft
  | .mvDrafted _ _ draft => some draft
  | .mvPlaced _ _ draft => some draft
  | _ => none

/-- The next turn records an operation. -/
def records : Task → Bool
  | .addDrafted _ _ _ => true
  | .rmWritten _ _ => true
  | .mkdirDrafted _ _ => true
  | .mvPlaced _ _ _ => true
  | _ => false

/-- The operation that the task has recorded. -/
def recorded? : Task → Option PathOperation
  | .returned (.ok (.edited op)) => some op
  | _ => none

/-- The copy that the version was made of whose operations the next turn clears. -/
def copied? : Task → Option MountInner
  | .saveStored copied _ _ => some copied
  | _ => none

/-- The turn writes its draft over the entry that it was made from, it gives its operation
an id that is not in use, and it clears only operations that its version has. -/
structure Undisturbed (state : MountState) (task : Task) : Prop where
  entry : ∀ draft ∈ task.draft?, draft.snapshot = state.inner.entry
  id : task.records = true → ∀ op ∈ state.inner.opsLog,
    op.id ≠ ⟨u64Succ state.inner.opsLog.localClock, state.inner.peerId⟩
  log : ∀ copied ∈ task.copied?, ∀ op ∈ state.inner.opsLog, op ∈ copied.opsLog

instance (state : MountState) (task : Task) : Decidable (task.Undisturbed state) :=
  decidable_of_iff
    ((∀ draft ∈ task.draft?, draft.snapshot = state.inner.entry) ∧
      (task.records = true → ∀ op ∈ state.inner.opsLog.operations.toList,
        op.id ≠ ⟨u64Succ state.inner.opsLog.localClock, state.inner.peerId⟩) ∧
      ∀ copied ∈ task.copied?, ∀ op ∈ state.inner.opsLog.operations.toList, op ∈ copied.opsLog)
    ⟨fun h => ⟨h.1, h.2.1, h.2.2⟩, fun h => ⟨h.entry, h.id, h.log⟩⟩

end Task

/-- What a turn leaves to the other tasks.  The store grows, away from the paths the entry
is as before, and no operation leaves the log that is not in the copy of a save. -/
structure Moved (paths : List (List Name)) (state : MountState) (task : Task) : Prop where
  grows : Grows state.world (task.move state).1.world
  alike : ∀ names, (∀ path ∈ paths, DisjointPaths names path) →
    AlikeAt (task.move state).1.world names state.inner.entry (task.move state).1.inner.entry
  pending : ∀ op ∈ state.inner.opsLog, op ∈ (task.move state).1.inner.opsLog ∨
    ∃ copied ∈ task.copied?, op ∈ copied.opsLog
  recorded : ∀ op ∈ (task.move state).2.recorded?, op ∈ task.recorded? ∨
    op ∈ (task.move state).1.inner.opsLog

section

variable {state : MountState} {paths : List (List Name)}

/-- A turn without the lock. -/
theorem moved_of_offLock {stage : World → Node → Task → Prop} {task : Task}
    (herror : ∀ world entry fault, stage world entry (.returned (.error fault)))
    (h : OffLock task.step state (fun world next =>
      stage world state.inner.entry next ∧ next.recorded? = none)) (paths : List (List Name)) :
    Moved paths state task ∧
      stage (task.move state).1.world (task.move state).1.inner.entry (task.move state).2 := by
  have hmove : ∃ world next, task.move state = ({ state with world := world }, next) ∧
      Grows state.world world ∧ stage world state.inner.entry next ∧ next.recorded? = none := by
    unfold Task.move
    rcases h with ⟨fault, world, hrun, hgrows⟩ | ⟨next, world, hrun, hgrows, hstage, hnone⟩
    · rw [hrun]
      exact ⟨world, _, rfl, hgrows, herror _ _ _, rfl⟩
    · rw [hrun]
      exact ⟨world, next, rfl, hgrows, hstage, hnone⟩
  obtain ⟨world, next, hmove, hgrows, hstage, hnone⟩ := hmove
  constructor
  · constructor <;> rw [hmove]
    · exact hgrows
    · exact fun names _ => AlikeAt.refl _ _ _
    · exact fun op hop => Or.inl hop
    · simp [hnone]
  · rw [hmove]
    exact hstage

theorem moved_returned (result : Except Fault Outcome) :
    Moved paths state (.returned result) where
  grows := Grows.refl _
  alike _ _ := AlikeAt.refl _ _ _
  pending _ hop := Or.inl hop
  recorded _ hop := Or.inl hop

/-- The tree of a draft that is written back over the entry it was made from. -/
theorem written {draft : Draft} (hquiet : draft.snapshot = state.inner.entry) :
    (draft.writeTo state.inner).entry = draft.newEntry.getD draft.snapshot := by
  rw [hquiet]
  rfl

theorem alikeAt_written {draft : Draft} {names : List Name}
    (hquiet : draft.snapshot = state.inner.entry) (hwithin : draft.Within state.world names)
    (hnames : names ∈ paths) {path : List Name}
    (hpath : ∀ other ∈ paths, DisjointPaths path other) :
    AlikeAt state.world path state.inner.entry (draft.writeTo state.inner).entry := by
  rw [written hquiet, ← hquiet]
  exact hwithin path (hpath names hnames)

theorem moved_of_write {task next : Task} {draft : Draft} {names : List Name}
    (hmove : task.move state = ({ state with inner := draft.writeTo state.inner }, next))
    (hnext : next.recorded? = none) (hquiet : draft.snapshot = state.inner.entry)
    (hwithin : draft.Within state.world names) (hnames : names ∈ paths) :
    Moved paths state task := by
  constructor <;> rw [hmove]
  · exact Grows.refl _
  · exact fun _ hpath => alikeAt_written hquiet hwithin hnames hpath
  · exact fun op hop => Or.inl hop
  · simp [hnext]

/-- The operation gets an id that is not in use, so no other one leaves the log. -/
theorem moved_of_record {task : Task} {inner : MountInner} {opType : OpType} {path : Path}
    {contentLink : Option Link} {isDir : Bool}
    (hmove : task.move state =
      ({ state with inner := inner.recordOp opType path contentLink isDir },
        .returned (.ok (.edited ⟨(inner.opsLog.record inner.peerId opType path contentLink
          isDir).1, opType, path, contentLink, isDir⟩))))
    (hlog : inner.opsLog = state.inner.opsLog) (hpeer : inner.peerId = state.inner.peerId)
    (hrecords : task.records = true) (hquiet : task.Undisturbed state)
    (halike : ∀ names, (∀ other ∈ paths, DisjointPaths names other) →
      AlikeAt state.world names state.inner.entry inner.entry) :
    Moved paths state task := by
  have hid := hquiet.id hrecords
  rw [← hlog, ← hpeer] at hid
  constructor <;> rw [hmove]
  · exact Grows.refl _
  · exact halike
  · intro op hop
    rw [← hlog] at hop
    exact Or.inl (KeyedMap.mem_insert.mpr (Or.inr ⟨hop, hid op hop⟩))
  · intro op hop
    cases hop
    exact Or.inr (KeyedMap.mem_insert.mpr (Or.inl rfl))

end

/-! ## What an edit has done in the end -/

namespace TreeAction

def paths : TreeAction → List (List Name)
  | .add names _ => [names]
  | .mkdir names => [names]
  | .rm names => [names]
  | .mv source target => [source, target]

/-- The operation that the edit records. -/
def RecordedAs (op : PathOperation) : TreeAction → Prop
  | .add names _ => op.opType = .add ∧ op.path = relPath names
  | .mkdir names => op.opType = .mkdir ∧ op.path = relPath names
  | .rm names => op.opType = .remove ∧ op.path = relPath names
  | .mv source target => op.opType = .mv (relPath source) ∧ op.path = relPath target

end TreeAction

/-- The entry has the edit, which began when the mount had the entry `initial`. -/
def TreeAction.Done (initial : Node) (world : World) (entry : Node) : TreeAction → Prop
  | .add names data => ∃ link secret, FileAt world link.hash secret data ∧
      findLink world.blobs entry names =
        some (.data link secret (P.mimeFromPath (absPath names)))
  | .mkdir names => ∃ link secret,
      loadNode world.blobs (.dir link secret) = some Node.default ∧
        findLink world.blobs entry names = some (.dir link secret)
  | .rm names => GoneAt world entry names
  | .mv source target => GoneAt world entry source ∧ ∃ link,
      findLink world.blobs initial source = some link ∧
        findLink world.blobs entry target = some link

section

variable {world world' : World} {names source target : List Name} {entry entry' : Node}
  {link : NodeLink}

/-- A link in a place that is left alone. -/
theorem AlikeAt.findLink_of_grows (halike : AlikeAt world' names entry entry')
    (hgrows : Grows world world') (h : findLink world.blobs entry names = some link) :
    findLink world'.blobs entry' names = some link := by
  rw [halike.findLink_eq]
  exact hgrows.findLink h

theorem TreeAction.Done.alike {initial : Node} {action : TreeAction}
    (h : action.Done initial world entry) (hgrows : Grows world world')
    (halike : ∀ path ∈ action.paths, AlikeAt world' path entry entry') :
    action.Done initial world' entry' := by
  cases action with
  | add names data =>
      obtain ⟨link, secret, hfile, hlink⟩ := h
      exact ⟨link, secret, hfile.grows hgrows,
        (halike names List.mem_cons_self).findLink_of_grows hgrows hlink⟩
  | mkdir names =>
      obtain ⟨link, secret, hload, hlink⟩ := h
      exact ⟨link, secret, hgrows.loadNode hload,
        (halike names List.mem_cons_self).findLink_of_grows hgrows hlink⟩
  | rm names => exact (GoneAt.grows h hgrows).alike (halike names List.mem_cons_self)
  | mv source target =>
      obtain ⟨hgone, link, hsource, htarget⟩ := h
      have hlink := (halike target (by simp [TreeAction.paths])).findLink_of_grows hgrows htarget
      exact ⟨(hgone.grows hgrows).alike (halike source List.mem_cons_self), link,
        hgrows.findLink hsource, hlink⟩

end

/-! ## The stages -/

/-- An edit that has returned without an error has recorded its operation and is done. -/
def TreeAction.Ended (initial : Node) (world : World) (entry : Node) (action : TreeAction)
    (result : Except Fault Outcome) : Prop :=
  ∀ outcome, result = .ok outcome →
    (∃ op, outcome = .edited op ∧ action.RecordedAs op) ∧ action.Done initial world entry

def AddStage (names : List Name) (data : Bytes) (initial : Node) (world : World)
    (entry : Node) : Task → Prop
  | .add path bytes => path = absPath names ∧ bytes = data
  | .addStored path hash secret => path = absPath names ∧ FileAt world hash secret data
  | .addDrafted path link draft => path = absPath names ∧ ∃ secret,
      FileAt world link.hash secret data ∧
        LinkDraft world (.data link secret (P.mimeFromPath path)) names draft
  | .returned result => (TreeAction.add names data).Ended initial world entry result
  | _ => False

def MkdirStage (names : List Name) (initial : Node) (world : World) (entry : Node) :
    Task → Prop
  | .mkdir path => path = absPath names
  | .mkdirDrafted path draft => path = relPath names ∧ ∃ link secret,
      loadNode world.blobs (.dir link secret) = some Node.default ∧
        LinkDraft world (.dir link secret) names draft
  | .returned result => (TreeAction.mkdir names).Ended initial world entry result
  | _ => False

def RmStage (names : List Name) (initial : Node) (world : World) (entry : Node) :
    Task → Prop
  | .rm path => path = absPath names
  | .rmDrafted path _ draft => path = relPath names ∧ RemovalDraft world names draft
  | .rmWritten path _ => path = relPath names ∧ GoneAt world entry names
  | .returned result => (TreeAction.rm names).Ended initial world entry result
  | _ => False

/-- The move has found its source and may go on. -/
structure Carries (source target : List Name) (initial : Node) (world : World) (move : Move)
    (nodeLink : NodeLink) : Prop where
  paths : move = ⟨absPath source, absPath target, relPath source, relPath target⟩
  outside : ¬ source <+: target
  found : findLink world.blobs initial source = some nodeLink

def MvStage (source target : List Name) (initial : Node) (world : World) (entry : Node) :
    Task → Prop
  | .mv path path' => path = absPath source ∧ path' = absPath target ∧
      AlikeAt world source initial entry
  | .mvFound move nodeLink => Carries source target initial world move nodeLink ∧
      AlikeAt world source initial entry
  | .mvChecked move nodeLink => Carries source target initial world move nodeLink ∧
      (target ≠ [] → ¬ target <+: source)
  | .mvDrafted move nodeLink draft => Carries source target initial world move nodeLink ∧
      (target ≠ [] → ¬ target <+: source) ∧ RemovalDraft world source draft
  | .mvRemoved move nodeLink => Carries source target initial world move nodeLink ∧
      (target ≠ [] → ¬ target <+: source) ∧ GoneAt world entry source
  | .mvPlaced move nodeLink draft => Carries source target initial world move nodeLink ∧
      (target ≠ [] → ¬ target <+: source) ∧ GoneAt world entry source ∧
        LinkDraft world nodeLink target draft
  | .returned result => (TreeAction.mv source target).Ended initial world entry result
  | _ => False

def EditStage (initial : Node) (world : World) (entry : Node) : TreeAction → Task → Prop
  | .add names data => AddStage names data initial world entry
  | .mkdir names => MkdirStage names initial world entry
  | .rm names => RmStage names initial world entry
  | .mv source target => MvStage source target initial world entry

section

variable {initial : Node} {world world' : World} {entry entry' : Node} {task : Task}

theorem TreeAction.Ended.alike {action : TreeAction} {result : Except Fault Outcome}
    (h : action.Ended initial world entry result) (hgrows : Grows world world')
    (halike : ∀ path ∈ action.paths, AlikeAt world' path entry entry') :
    action.Ended initial world' entry' result := by
  intro outcome hresult
  obtain ⟨hrecorded, hdone⟩ := h outcome hresult
  exact ⟨hrecorded, hdone.alike hgrows halike⟩

theorem TreeAction.ended_error (action : TreeAction) (fault : Fault) :
    action.Ended initial world entry (.error fault) := by
  intro outcome hresult
  contradiction

theorem Carries.grows {source target : List Name} {move : Move} {nodeLink : NodeLink}
    (h : Carries source target initial world move nodeLink) (hgrows : Grows world world') :
    Carries source target initial world' move nodeLink :=
  ⟨h.paths, h.outside, hgrows.findLink h.found⟩

/-- Other edits leave the stage as it is. -/
theorem EditStage.alike {action : TreeAction} (h : EditStage initial world entry action task)
    (hgrows : Grows world world')
    (halike : ∀ path ∈ action.paths, AlikeAt world' path entry entry') :
    EditStage initial world' entry' action task := by
  cases action with
  | add names data =>
      cases task with
      | add path bytes => exact h
      | addStored path hash secret => exact ⟨h.1, FileAt.grows h.2 hgrows⟩
      | addDrafted path link draft =>
          obtain ⟨hpath, secret, hfile, hdraft⟩ := h
          exact ⟨hpath, secret, hfile.grows hgrows, hdraft.grows hgrows⟩
      | returned result => exact TreeAction.Ended.alike h hgrows halike
      | _ => exact h
  | mkdir names =>
      cases task with
      | mkdir path => exact h
      | mkdirDrafted path draft =>
          obtain ⟨hpath, link, secret, hload, hdraft⟩ := h
          exact ⟨hpath, link, secret, hgrows.loadNode hload, hdraft.grows hgrows⟩
      | returned result => exact TreeAction.Ended.alike h hgrows halike
      | _ => exact h
  | rm names =>
      have hnames := halike names List.mem_cons_self
      cases task with
      | rm path => exact h
      | rmDrafted path isDir draft => exact ⟨h.1, RemovalDraft.grows h.2 hgrows⟩
      | rmWritten path isDir => exact ⟨h.1, (GoneAt.grows h.2 hgrows).alike hnames⟩
      | returned result => exact TreeAction.Ended.alike h hgrows halike
      | _ => exact h
  | mv source target =>
      have hsource := halike source List.mem_cons_self
      cases task with
      | mv path path' =>
          obtain ⟨hpath, hpath', hinitial⟩ := h
          exact ⟨hpath, hpath', (hinitial.grows hgrows).trans hsource⟩
      | mvFound move nodeLink => exact ⟨h.1.grows hgrows, (h.2.grows hgrows).trans hsource⟩
      | mvChecked move nodeLink => exact ⟨h.1.grows hgrows, h.2⟩
      | mvDrafted move nodeLink draft =>
          obtain ⟨hcarries, hoff, hdraft⟩ := h
          exact ⟨hcarries.grows hgrows, hoff, hdraft.grows hgrows⟩
      | mvRemoved move nodeLink =>
          obtain ⟨hcarries, hoff, hgone⟩ := h
          exact ⟨hcarries.grows hgrows, hoff, (hgone.grows hgrows).alike hsource⟩
      | mvPlaced move nodeLink draft =>
          obtain ⟨hcarries, hoff, hgone, hdraft⟩ := h
          exact ⟨hcarries.grows hgrows, hoff, (hgone.grows hgrows).alike hsource,
            hdraft.grows hgrows⟩
      | returned result => exact TreeAction.Ended.alike h hgrows halike
      | _ => exact h

end

/-! ## The turns of each edit -/

variable [LawfulPrimitives]

section

variable {initial : Node} {state : MountState} {task : Task} {names source target : List Name}

theorem AddStage.move {data : Bytes}
    (h : AddStage names data initial state.world state.inner.entry task)
    (hquiet : task.Undisturbed state) :
    Moved [names] state task ∧
      AddStage names data initial (task.move state).1.world (task.move state).1.inner.entry
        (task.move state).2 := by
  have herror : ∀ world entry fault,
      AddStage names data initial world entry (.returned (.error fault)) :=
    fun _ _ fault => TreeAction.ended_error _ fault
  cases task with
  | add path bytes =>
      obtain ⟨rfl, rfl⟩ := h
      apply moved_of_offLock herror
      apply OffLock.storeFile
      intro hash secret world hgrows hfile
      exact OffLock.pure ⟨⟨rfl, hfile⟩, rfl⟩
  | addStored path hash secret =>
      obtain ⟨rfl, hfile⟩ := h
      apply moved_of_offLock herror
      apply OffLock.getThe_bind
      apply (OffLock.draftLink _ _ names [hash]).bind
      intro world draft hgrows hdraft
      exact OffLock.pure ⟨⟨rfl, secret, hfile.grows hgrows, hdraft.2⟩, rfl⟩
  | addDrafted path link draft =>
      obtain ⟨rfl, secret, hfile, hdraft⟩ := h
      have hentry := written (hquiet.entry draft rfl)
      have hlink := hdraft.findLink
      rw [← hentry] at hlink
      refine ⟨moved_of_record rfl rfl rfl rfl hquiet (fun _ hpath => alikeAt_written
        (hquiet.entry draft rfl) hdraft.within List.mem_cons_self hpath), ?_⟩
      intro outcome hresult
      cases hresult
      exact ⟨⟨_, rfl, rfl, rfl⟩, link, secret, hfile, hlink⟩
  | returned result => exact ⟨moved_returned result, h⟩
  | _ => exact absurd h id

theorem MkdirStage.move (h : MkdirStage names initial state.world state.inner.entry task)
    (hquiet : task.Undisturbed state) :
    Moved [names] state task ∧
      MkdirStage names initial (task.move state).1.world (task.move state).1.inner.entry
        (task.move state).2 := by
  have herror : ∀ world entry fault,
      MkdirStage names initial world entry (.returned (.error fault)) :=
    fun _ _ fault => TreeAction.ended_error _ fault
  cases task with
  | mkdir path =>
      obtain rfl : path = absPath names := h
      apply moved_of_offLock herror
      rw [Task.step, cleanPath_absPath]
      apply OffLock.ofExcept_bind
      apply OffLock.getThe_bind
      rcases List.eq_nil_or_concat names with rfl | ⟨parents, name, rfl⟩
      · exact OffLock.throw _
      rw [List.concat_eq_append, parentAndName_relPath]
      apply OffLock.ofExcept_bind
      apply OffLock.readBlobs_bind
      intro parentNode hparent
      split_ifs with htaken
      · exact OffLock.throw _
      · rw [rootDir_relPath]
        apply OffLock.storeNode
        intro link secret world hgrows hload
        apply (OffLock.draftLink _ _ (parents ++ [name]) [link.hash]).bind
        intro world' draft hgrows' hdraft
        exact OffLock.pure ⟨⟨rfl, link, secret, hgrows'.loadNode hload, hdraft.2⟩, rfl⟩
  | mkdirDrafted path draft =>
      obtain ⟨rfl, link, secret, hload, hdraft⟩ := h
      have hentry := written (hquiet.entry draft rfl)
      have hlink := hdraft.findLink
      rw [← hentry] at hlink
      refine ⟨moved_of_record rfl rfl rfl rfl hquiet (fun _ hpath => alikeAt_written
        (hquiet.entry draft rfl) hdraft.within List.mem_cons_self hpath), ?_⟩
      intro outcome hresult
      cases hresult
      exact ⟨⟨_, rfl, rfl, rfl⟩, link, secret, hload, hlink⟩
  | returned result => exact ⟨moved_returned result, h⟩
  | _ => exact absurd h id

theorem RmStage.move (h : RmStage names initial state.world state.inner.entry task)
    (hquiet : task.Undisturbed state) :
    Moved [names] state task ∧
      RmStage names initial (task.move state).1.world (task.move state).1.inner.entry
        (task.move state).2 := by
  have herror : ∀ world entry fault,
      RmStage names initial world entry (.returned (.error fault)) :=
    fun _ _ fault => TreeAction.ended_error _ fault
  cases task with
  | rm path =>
      obtain rfl : path = absPath names := h
      apply moved_of_offLock herror
      rw [Task.step, cleanPath_absPath]
      apply OffLock.ofExcept_bind
      rcases List.eq_nil_or_concat names with rfl | ⟨parents, name, rfl⟩
      · exact OffLock.throw _
      rw [List.concat_eq_append, relPath_parent_append_singleton]
      apply OffLock.getThe_bind
      apply (OffLock.draftRemoval _ parents name).bind
      intro world removal hgrows hdraft
      exact OffLock.pure ⟨⟨rfl, hdraft.2⟩, rfl⟩
  | rmDrafted path isDir draft =>
      obtain ⟨rfl, hdraft⟩ := h
      have hentry := written (hquiet.entry draft rfl)
      have hgone := hdraft.gone
      rw [← hentry] at hgone
      exact ⟨moved_of_write rfl rfl (hquiet.entry draft rfl) hdraft.within List.mem_cons_self,
        rfl, hgone⟩
  | rmWritten path isDir =>
      obtain ⟨rfl, hgone⟩ := h
      refine ⟨moved_of_record rfl rfl rfl rfl hquiet (fun _ _ => AlikeAt.refl _ _ _), ?_⟩
      intro outcome hresult
      cases hresult
      exact ⟨⟨_, rfl, rfl, rfl⟩, hgone⟩
  | returned result => exact ⟨moved_returned result, h⟩
  | _ => exact absurd h id

omit [LawfulPrimitives] in
/-- A target that is free does not lie above a source that is there. -/
theorem not_prefix_of_found {blobs : Blobs} {entry : Node} {link : NodeLink}
    (hsource : findLink blobs entry source = some link)
    (hfree : ∀ found, JaxFs.get blobs entry (absPath target) ≠ .ok found)
    (htarget : target ≠ []) : ¬ target <+: source := by
  intro hpre
  obtain ⟨above, habove⟩ := findLink_of_prefix hsource htarget hpre
  exact hfree above (get_eq_ok_iff.mpr habove)

theorem MvStage.move (h : MvStage source target initial state.world state.inner.entry task)
    (hquiet : task.Undisturbed state) :
    Moved [source, target] state task ∧
      MvStage source target initial (task.move state).1.world (task.move state).1.inner.entry
        (task.move state).2 := by
  have herror : ∀ world entry fault,
      MvStage source target initial world entry (.returned (.error fault)) :=
    fun _ _ fault => TreeAction.ended_error _ fault
  cases task with
  | mv path path' =>
      obtain ⟨rfl, rfl, hinitial⟩ := h
      apply moved_of_offLock herror
      rw [Task.step, cleanPath_absPath, cleanPath_absPath]
      apply OffLock.ofExcept_bind
      apply OffLock.ofExcept_bind
      split_ifs with hself
      · exact OffLock.throw _
      apply OffLock.getThe_bind
      apply OffLock.readBlobs_bind
      intro nodeLink hfound
      have hlink := get_eq_ok_iff.mp hfound
      rw [hinitial.findLink_eq] at hlink
      exact OffLock.pure ⟨⟨⟨rfl, absPath_startsWith_iff.not.mp hself, hlink⟩, hinitial⟩, rfl⟩
  | mvFound move nodeLink =>
      obtain ⟨⟨rfl, houtside, hlink⟩, hinitial⟩ := h
      apply moved_of_offLock herror
      rw [Task.step]
      apply OffLock.getThe_bind
      have hsource := hlink
      rw [← hinitial.findLink_eq] at hsource
      cases htarget : JaxFs.get state.world.blobs state.inner.entry (absPath target) with
      | ok found => exact OffLock.throw _
      | error fault =>
          cases fault with
          | error error =>
              have hoff := @not_prefix_of_found _ _ target _ _ _ hsource (by simp [htarget])
              exact OffLock.pure ⟨⟨⟨rfl, houtside, hlink⟩, hoff⟩, rfl⟩
          | _ => exact OffLock.throw _
  | mvChecked move nodeLink =>
      obtain ⟨⟨rfl, houtside, hlink⟩, hoff⟩ := h
      apply moved_of_offLock herror
      rw [Task.step]
      rcases List.eq_nil_or_concat source with rfl | ⟨parents, name, rfl⟩
      · exact OffLock.throw _
      rw [List.concat_eq_append] at *
      rw [relPath_parent_append_singleton]
      apply OffLock.getThe_bind
      apply (OffLock.draftRemoval _ parents name).bind
      intro world removal hgrows hdraft
      exact OffLock.pure ⟨⟨⟨rfl, houtside, hgrows.findLink hlink⟩, hoff, hdraft.2⟩, rfl⟩
  | mvDrafted move nodeLink draft =>
      obtain ⟨hcarries, hoff, hdraft⟩ := h
      have hentry := written (hquiet.entry draft rfl)
      have hgone := hdraft.gone
      rw [← hentry] at hgone
      exact ⟨moved_of_write rfl rfl (hquiet.entry draft rfl) hdraft.within List.mem_cons_self,
        hcarries, hoff, hgone⟩
  | mvRemoved move nodeLink =>
      obtain ⟨⟨rfl, houtside, hlink⟩, hoff, hgone⟩ := h
      apply moved_of_offLock herror
      rw [Task.step]
      apply OffLock.getThe_bind
      apply OffLock.setNodeLink
      intro parents name root secret hashes world newEntry htarget hgrows hroot hupdated
      apply OffLock.readBlobs_bind
      intro loaded hread
      cases hread.symm.trans (getNodeFromBlobs_of_loadNode hroot)
      exact OffLock.pure ⟨⟨⟨rfl, houtside, hgrows.findLink hlink⟩, hoff, hgone.grows hgrows,
        parents, name, newEntry, htarget, rfl, hupdated⟩, rfl⟩
  | mvPlaced move nodeLink draft =>
      obtain ⟨⟨rfl, houtside, hlink⟩, hoff, hgone, hdraft⟩ := h
      have hsnapshot := hquiet.entry draft rfl
      have hentry := written hsnapshot
      have htarget := hdraft.findLink
      rw [← hentry] at htarget
      have hne : target ≠ [] := findLink_ne_nil htarget
      have hsource := hdraft.within source ⟨houtside, hoff hne⟩
      rw [← hentry, hsnapshot] at hsource
      refine ⟨moved_of_record rfl rfl rfl rfl hquiet (fun _ hpath => alikeAt_written hsnapshot
        hdraft.within (List.mem_cons_of_mem _ List.mem_cons_self) hpath), ?_⟩
      intro outcome hresult
      cases hresult
      exact ⟨⟨_, rfl, rfl, rfl⟩, hgone.alike hsource, nodeLink, hlink, htarget⟩
  | returned result => exact ⟨moved_returned result, h⟩
  | _ => exact absurd h id

end

end

end JaxFs

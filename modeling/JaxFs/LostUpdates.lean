import JaxFs.SharedStages

/-!
# Lost updates

Operations on a shared mount, in any order of their turns.  An edit is lost when another
one writes back a tree that it made before, and a recorded operation when a save clears
the log after it has copied it.  When no turn does that, the tree has every edit in the
end, and every recorded operation is pending or in the log of a version.
-/

namespace JaxFs

section

variable [P : Primitives]

/-! ## The stages of a shared operation -/

namespace SharedOp

def paths : SharedOp → List (List Name)
  | .edit action => action.paths
  | .save _ => []

/-- No path of the one operation leads to a path of the other. -/
def Apart (op op' : SharedOp) : Prop :=
  ∀ path ∈ op.paths, ∀ path' ∈ op'.paths, DisjointPaths path path'

omit P in
theorem Apart.symm {op op' : SharedOp} (h : op.Apart op') : op'.Apart op :=
  fun path hpath path' hpath' => (h path' hpath' path hpath).symm

end SharedOp

/-- The version that a save has stored has the operations of the log it was made of. -/
def SaveStage (world : World) : Task → Prop
  | .save _ => True
  | .saveStored copied _ link => ∀ op ∈ copied.opsLog, PersistedIn world.blobs link op
  | .returned result => ∀ outcome, result = .ok outcome →
      ∃ link previousLink height, outcome = .saved link previousLink height
  | _ => False

def SharedOp.Stage (initial : Node) (state : MountState) : SharedOp → Task → Prop
  | .edit action => EditStage initial state.world state.inner.entry action
  | .save _ => SaveStage state.world

theorem SaveStage.grows {world world' : World} {task : Task} (h : SaveStage world task)
    (hgrows : Grows world world') : SaveStage world' task := by
  cases task with
  | saveStored copied manifest link => exact fun op hop => hgrows.persistedIn (h op hop)
  | _ => exact h

variable [LawfulPrimitives] {state : MountState} {task : Task} {initial : Node}

theorem SaveStage.move (h : SaveStage state.world task) (hquiet : task.Undisturbed state) :
    Moved [] state task ∧ SaveStage (task.move state).1.world (task.move state).2 := by
  have herror : ∀ (world : World) (entry : Node) (fault : Fault),
      SaveStage world (.returned (.error fault)) := by
    intro world entry fault outcome hresult
    contradiction
  cases task with
  | save publish =>
      apply moved_of_offLock herror
      apply OffLock.getThe_bind
      have hstore : OffLock (onBlobs (saveVersion state.inner publish)) state
          (fun world version => ∀ op ∈ state.inner.opsLog,
            PersistedIn world.blobs version.2 op) := by
        apply OffLock.onBlobs (grows_saveVersion _ _)
        intro version world hversion op hop
        exact (savedVersion_of_saveVersion hversion).persistedIn hop
      apply hstore.bind
      intro world version hgrows hpersisted
      exact OffLock.pure ⟨hpersisted, rfl⟩
  | saveStored copied manifest link =>
      constructor
      · constructor
        · exact Grows.refl _
        · exact fun _ _ => AlikeAt.refl _ _ _
        · exact fun op hop => Or.inr ⟨copied, rfl, hquiet.log copied rfl op hop⟩
        · intro op hop
          cases hop
      · intro outcome hresult
        cases hresult
        exact ⟨link, _, _, rfl⟩
  | returned result => exact ⟨moved_returned result, h⟩
  | _ => exact absurd h id

/-- An undisturbed turn of an operation. -/
theorem SharedOp.Stage.move {op : SharedOp} (h : op.Stage initial state task)
    (hquiet : task.Undisturbed state) :
    Moved op.paths state task ∧ op.Stage initial (task.move state).1 (task.move state).2 := by
  cases op with
  | save publish => exact SaveStage.move h hquiet
  | edit action =>
      cases action with
      | add names data => exact AddStage.move h hquiet
      | mkdir names => exact MkdirStage.move h hquiet
      | rm names => exact RmStage.move h hquiet
      | mv source target => exact MvStage.move h hquiet

omit [LawfulPrimitives] in
/-- A turn of one operation, seen from another one. -/
theorem SharedOp.Stage.alike {op other : SharedOp} {task' : Task}
    (h : other.Stage initial state task') (hmoved : Moved op.paths state task)
    (hapart : op.Apart other) : other.Stage initial (task.move state).1 task' := by
  cases other with
  | save publish => exact SaveStage.grows h hmoved.grows
  | edit action =>
      apply EditStage.alike h hmoved.grows
      intro path hpath
      apply hmoved.alike
      exact fun path' hpath' => (hapart path' hpath' path hpath).symm

theorem stageRules (initial : Node) :
    Interleaved.StageRules (fun state task => Task.move state task)
      (fun state task => task.Undisturbed state)
      (fun state op task => SharedOp.Stage initial state op task) SharedOp.Apart where
  own _ _ _ hstage hquiet := (hstage.move hquiet).2
  other _ _ _ _ _ hapart hstage hquiet hother := hother.alike (hstage.move hquiet).1 hapart

/-! ## Runs -/

/-- One operation has a turn. -/
def sharedTurn (system : Interleaved MountState Task) (number : ℕ) :
    Interleaved MountState Task :=
  system.turn Task.move number

/-- The operation is pending, or in the log of a version that a save has returned. -/
def Keeps (system : Interleaved MountState Task) (op : PathOperation) : Prop :=
  op ∈ system.shared.inner.opsLog ∨ ∃ link previousLink height,
    .returned (.ok (.saved link previousLink height)) ∈ system.tasks ∧
      PersistedIn system.shared.world.blobs link op

/-- Every operation is at a stage, no operation is lost from the log, and nothing has
happened away from the paths of the edits. -/
structure SharedInvariant (start : MountState) (ops : List SharedOp)
    (system : Interleaved MountState Task) : Prop where
  stages : system.AtStages (SharedOp.Stage start.inner.entry) ops
  rest : ∀ names, (∀ op ∈ ops, ∀ path ∈ op.paths, DisjointPaths names path) →
    AlikeAt system.shared.world names start.inner.entry system.shared.inner.entry
  log : ∀ op, (op ∈ start.inner.opsLog ∨ ∃ task ∈ system.tasks, op ∈ task.recorded?) →
    Keeps system op

/-- The turn of the task with the number is undisturbed. -/
def QuietTurn (system : Interleaved MountState Task) (number : ℕ) : Prop :=
  system.Allows (fun state task => task.Undisturbed state) number

instance (system : Interleaved MountState Task) (number : ℕ) :
    Decidable (QuietTurn system number) :=
  decidable_of_iff (∀ task ∈ system.tasks[number]?, task.Undisturbed system.shared) Iff.rfl

section

variable {start : MountState} {ops : List SharedOp} {system : Interleaved MountState Task}
  {number : ℕ}

omit [LawfulPrimitives] in
theorem returned_mem_turn {result : Except Fault Outcome}
    (h : .returned result ∈ system.tasks) (number : ℕ) :
    .returned result ∈ (sharedTurn system number).tasks :=
  Interleaved.mem_tasks_turn (fun _ => rfl) h number

omit [LawfulPrimitives] in
/-- What a turn keeps of the log: an operation that a save clears is in its version. -/
theorem Keeps.turn {op : PathOperation} {job : SharedOp} (h : Keeps system op)
    (htask : system.tasks[number]? = some task)
    (hstage : job.Stage initial system.shared task)
    (hmoved : Moved job.paths system.shared task) : Keeps (sharedTurn system number) op := by
  have hshared : (sharedTurn system number).shared = (task.move system.shared).1 := by
    rw [sharedTurn, Interleaved.turn_of_some htask]
  rcases h with hpending | ⟨link, previousLink, height, hsaved, hpersisted⟩
  · rcases hmoved.pending op hpending with hstill | ⟨copied, hcopied, hop⟩
    · left
      rw [hshared]
      exact hstill
    · right
      cases task with
      | saveStored other manifest link =>
          cases hcopied
          refine ⟨link, copied.link, copied.height + 1, ?_, ?_⟩
          · rw [sharedTurn, Interleaved.turn_of_some htask]
            exact List.mem_set (List.getElem?_eq_some_iff.mp htask).1 _
          · rw [hshared]
            apply hmoved.grows.persistedIn
            cases job with
            | save publish => exact hstage op hop
            | edit action =>
                cases action with
                | _ => exact absurd hstage id
      | _ => exact absurd hcopied (by simp [Task.copied?])
  · right
    refine ⟨link, previousLink, height, returned_mem_turn hsaved number, ?_⟩
    rw [hshared]
    exact hmoved.grows.persistedIn hpersisted

theorem SharedInvariant.turn (hapart : ops.Pairwise SharedOp.Apart)
    (h : SharedInvariant start ops system) (hquiet : QuietTurn system number) :
    SharedInvariant start ops (sharedTurn system number) := by
  have hpairs : ∀ (place place' : ℕ) op op', place ≠ place' → ops[place]? = some op →
      ops[place']? = some op' → op.Apart op' := by
    intro place place' op op' hne hop hop'
    obtain ⟨hbound, rfl⟩ := List.getElem?_eq_some_iff.mp hop
    obtain ⟨hbound', rfl⟩ := List.getElem?_eq_some_iff.mp hop'
    rcases Nat.lt_or_gt_of_ne hne with hlt | hgt
    · exact List.pairwise_iff_getElem.mp hapart _ _ hbound hbound' hlt
    · exact (List.pairwise_iff_getElem.mp hapart _ _ hbound' hbound hgt).symm
  have hstages := h.stages.turn (stageRules start.inner.entry) hpairs hquiet
  cases htask : system.tasks[number]? with
  | none =>
      rw [sharedTurn, Interleaved.turn_of_none htask]
      exact h
  | some task =>
      obtain ⟨job, hjob, hstage⟩ := h.stages.job htask
      have hmoved := (hstage.move (hquiet task htask)).1
      have hturn := @Interleaved.turn_of_some _ _ Task.move _ _ _ htask
      refine ⟨hstages, ?_, ?_⟩
      · intro names hnames
        rw [sharedTurn, hturn]
        have halike := hmoved.alike names (hnames job (List.mem_of_getElem? hjob))
        exact ((h.rest names hnames).grows hmoved.grows).trans halike
      · intro op hop
        by_cases hknown : op ∈ start.inner.opsLog ∨ ∃ task ∈ system.tasks, op ∈ task.recorded?
        · exact (h.log op hknown).turn htask hstage hmoved
        · left
          rw [not_or] at hknown
          obtain ⟨task', htask', hrecorded⟩ := hop.resolve_left hknown.1
          rw [sharedTurn, hturn] at htask' ⊢
          rcases List.mem_or_eq_of_mem_set htask' with hold | rfl
          · exact absurd ⟨task', hold, hrecorded⟩ hknown.2
          · apply (hmoved.recorded op hrecorded).resolve_left
            exact fun hbefore => hknown.2 ⟨task, List.mem_of_getElem? htask, hbefore⟩

omit [LawfulPrimitives] in
theorem sharedInvariant_start (start : MountState) (ops : List SharedOp) :
    SharedInvariant start ops (sharedMount start ops) := by
  refine ⟨⟨by simp [sharedMount], ?_⟩, fun names _ => AlikeAt.refl _ _ _, ?_⟩
  · intro number op task hop htask
    have hcalled : task = op.task := by
      simpa [sharedMount, hop, eq_comm] using htask
    subst hcalled
    cases op with
    | save publish => trivial
    | edit action =>
        cases action with
        | add names data => exact ⟨rfl, rfl⟩
        | mkdir names => exact rfl
        | rm names => exact rfl
        | mv source target => exact ⟨rfl, rfl, AlikeAt.refl _ _ _⟩
  · intro op hop
    left
    apply hop.resolve_right
    intro ⟨task, htask, hrecorded⟩
    obtain ⟨called, -, rfl⟩ := List.mem_map.mp htask
    cases called with
    | save publish => contradiction
    | edit action => cases action <;> contradiction

end

/-! ## What the mount has in the end -/

/-- The reads of the mount show the edit, which began when the mount was in the state
`start`. -/
def TreeAction.Reflected (start state : MountState) : TreeAction → Prop
  | .add names data => ∃ link secret,
      state.get (absPath names) = .ok (.data link secret (P.mimeFromPath (absPath names))) ∧
        state.cat (absPath names) = .ok data
  | .mkdir names => ∃ link secret, state.get (absPath names) = .ok (.dir link secret) ∧
      state.ls (absPath names) = .ok KeyedMap.empty
  | .rm names => ∀ rest link, state.get (absPath (names ++ rest)) ≠ .ok link
  | .mv source target => (∀ rest link, state.get (absPath (source ++ rest)) ≠ .ok link) ∧
      ∃ link, JaxFs.get state.world.blobs start.inner.entry (absPath source) = .ok link ∧
        state.get (absPath target) = .ok link

omit [LawfulPrimitives] in
theorem GoneAt.not_get {state : MountState} {names : List Name}
    (h : GoneAt state.world state.inner.entry names) (rest : List Name) (link : NodeLink) :
    state.get (absPath (names ++ rest)) ≠ .ok link := by
  intro hfound
  have hlink := get_eq_ok_iff.mp hfound
  rw [h state.world (Grows.refl _) rest] at hlink
  contradiction

omit [LawfulPrimitives] in
theorem TreeAction.Done.reflected {start state : MountState} {action : TreeAction}
    (h : action.Done start.inner.entry state.world state.inner.entry) :
    action.Reflected start state := by
  cases action with
  | add names data =>
      obtain ⟨link, secret, ⟨blob, hblob, hdata⟩, hlink⟩ := h
      exact ⟨link, secret, get_eq_ok_iff.mpr hlink,
        cat_absPath.mpr ⟨link, secret, _, blob, hlink, hblob, hdata⟩⟩
  | mkdir names =>
      obtain ⟨link, secret, hload, hlink⟩ := h
      refine ⟨link, secret, get_eq_ok_iff.mpr hlink, ?_⟩
      have hwalk : walkNode state.world.blobs state.inner.entry names = some Node.default := by
        rw [walkNode_of_findLink (findLink_ne_nil hlink), hlink]
        exact hload
      rcases ls_absPath state.world.blobs state.inner.entry names with ⟨node, hnode, hls⟩ |
        ⟨hnone, -⟩
      · rw [hwalk] at hnode
        cases hnode
        exact hls
      · rw [hwalk] at hnone
        contradiction
  | rm names => exact GoneAt.not_get h
  | mv source target =>
      obtain ⟨hgone, link, hsource, htarget⟩ := h
      exact ⟨hgone.not_get, link, get_eq_ok_iff.mpr hsource, get_eq_ok_iff.mpr htarget⟩

/-- All operations have returned without an error. -/
def AllReturned (system : Interleaved MountState Task) : Prop :=
  ∀ task ∈ system.tasks, ∃ outcome, task = .returned (.ok outcome)

def Task.succeeded : Task → Bool
  | .returned (.ok _) => true
  | _ => false

omit [LawfulPrimitives] in
theorem allReturned_iff {system : Interleaved MountState Task} :
    AllReturned system ↔ ∀ task ∈ system.tasks, task.succeeded = true := by
  constructor
  · intro h task htask
    obtain ⟨outcome, rfl⟩ := h task htask
    rfl
  · intro h task htask
    have hsucceeded := h task htask
    cases task with
    | returned result =>
        cases result with
        | ok outcome => exact ⟨outcome, rfl⟩
        | error fault => contradiction
    | _ => contradiction

/-- The tree has every edit and what was elsewhere before, and every operation that was
pending or has been recorded is pending or persisted. -/
structure NothingLost (start : MountState) (ops : List SharedOp)
    (system : Interleaved MountState Task) : Prop where
  tree : ∀ action, .edit action ∈ ops → action.Reflected start system.shared
  rest : ∀ names, (∀ op ∈ ops, ∀ path ∈ op.paths, DisjointPaths names path) → ∀ link,
    system.shared.get (absPath names) = .ok link ↔
      JaxFs.get system.shared.world.blobs start.inner.entry (absPath names) = .ok link
  recorded : ∀ (number : ℕ) action, ops[number]? = some (.edit action) → ∃ op,
    system.tasks[number]? = some (.returned (.ok (.edited op))) ∧ action.RecordedAs op ∧
      Keeps system op
  pending : ∀ op ∈ start.inner.opsLog, Keeps system op

/-- No update of a shared mount is lost in a run of operations on disjoint paths whose
turns are all undisturbed. -/
theorem sharedMount_loses_nothing {start : MountState} {ops : List SharedOp}
    (hapart : ops.Pairwise SharedOp.Apart) {turns : List ℕ}
    (hquiet : AlongRun sharedTurn QuietTurn (sharedMount start ops) turns)
    (hreturned : AllReturned (turns.foldl sharedTurn (sharedMount start ops))) :
    NothingLost start ops (turns.foldl sharedTurn (sharedMount start ops)) := by
  have hrun := hquiet.invariant (fun _ _ hinv hturn => SharedInvariant.turn hapart hinv hturn)
    (sharedInvariant_start start ops)
  generalize turns.foldl sharedTurn (sharedMount start ops) = system at hrun hreturned
  have hended : ∀ (number : ℕ) action, ops[number]? = some (.edit action) → ∃ op,
      system.tasks[number]? = some (.returned (.ok (.edited op))) ∧ action.RecordedAs op ∧
        action.Done start.inner.entry system.shared.world system.shared.inner.entry := by
    intro number action hop
    have hbound := (List.getElem?_eq_some_iff.mp hop).1
    rw [← hrun.stages.length] at hbound
    have htask := List.getElem?_eq_getElem hbound
    obtain ⟨outcome, houtcome⟩ := hreturned _ (List.getElem_mem hbound)
    rw [houtcome] at htask
    have hstage := hrun.stages.stages number _ _ hop htask
    have hend : action.Ended start.inner.entry system.shared.world system.shared.inner.entry
        (.ok outcome) := by
      cases action <;> exact hstage
    obtain ⟨⟨op, rfl, hrecorded⟩, hdone⟩ := hend outcome rfl
    exact ⟨op, htask, hrecorded, hdone⟩
  constructor
  · intro action haction
    obtain ⟨number, hop⟩ := List.mem_iff_getElem?.mp haction
    obtain ⟨op, -, -, hdone⟩ := hended number action hop
    exact hdone.reflected
  · intro names hnames link
    unfold MountState.get
    rw [get_eq_ok_iff, get_eq_ok_iff, (hrun.rest names hnames).findLink_eq]
  · intro number action hop
    obtain ⟨op, htask, hrecorded, -⟩ := hended number action hop
    exact ⟨op, htask, hrecorded,
      hrun.log op (Or.inr ⟨_, List.mem_of_getElem? htask, rfl⟩)⟩
  · exact fun op hop => hrun.log op (Or.inl hop)

end

namespace Reference

/-- Two files that are added at the same time.  The second one is written back over a copy
of the tree from before the first. -/
def twoAdds : List SharedOp := [.edit (.add ["a".toList] [1]), .edit (.add ["b".toList] [2])]

def staleWrite : Interleaved MountState Task :=
  [0, 0, 1, 1, 0, 1].foldl sharedTurn (JaxFs.sharedMount emptyMount twoAdds)

/-- A file that is added between the copy and the clear of a save. -/
def addAndSave : List SharedOp := [.edit (.add ["a".toList] [1]), .save false]

def clearedUnsaved : Interleaved MountState Task :=
  [1, 0, 0, 0, 1].foldl sharedTurn (JaxFs.sharedMount emptyMount addAndSave)

/-- The log that the version of a save was stored with. -/
def savedOpsLog (system : Interleaved MountState Task) : Task → Option Link
  | .returned (.ok (.saved link _ _)) =>
      (getManifestFromBlobs system.shared.world.blobs link).toOption.bind Manifest.opsLog
  | _ => none

/-- The first of the two files is lost from the tree, and the operation of the third from
the log, although every operation has returned. -/
theorem shared_updates_lost :
    (twoAdds.Pairwise SharedOp.Apart ∧ AllReturned staleWrite ∧
      ¬ NothingLost emptyMount twoAdds staleWrite) ∧
    (addAndSave.Pairwise SharedOp.Apart ∧ AllReturned clearedUnsaved ∧
      ¬ NothingLost emptyMount addAndSave clearedUnsaved) := by
  have hfacts : (∀ task ∈ staleWrite.tasks, task.succeeded = true) ∧
      (staleWrite.shared.get (absPath ["a".toList])).toOption = none ∧
      (∀ task ∈ clearedUnsaved.tasks, task.succeeded = true) ∧
      clearedUnsaved.shared.inner.opsLog.operations.toList = [] ∧
      ∀ task ∈ clearedUnsaved.tasks, savedOpsLog clearedUnsaved task = none := by
    decide +kernel
  generalize staleWrite = stale at *
  generalize clearedUnsaved = cleared at *
  obtain ⟨hstale, hlost, hcleared, hempty, hunsaved⟩ := hfacts
  refine ⟨⟨?_, allReturned_iff.mpr hstale, ?_⟩, ⟨?_, allReturned_iff.mpr hcleared, ?_⟩⟩
  · simp [twoAdds, SharedOp.Apart, SharedOp.paths, TreeAction.paths, DisjointPaths]
  · intro h
    obtain ⟨link, secret, hget, -⟩ := h.tree (.add ["a".toList] [1]) (by simp [twoAdds])
    rw [hget] at hlost
    contradiction
  · simp [addAndSave, SharedOp.Apart, SharedOp.paths]
  · intro h
    obtain ⟨op, -, -, hkeeps⟩ := h.recorded 0 (.add ["a".toList] [1]) rfl
    rcases hkeeps with hpending | ⟨link, previousLink, height, hsaved, manifest, opsLink, -, -,
      hmanifest, hopsLog, -⟩
    · have hnone : op ∈ cleared.shared.inner.opsLog.operations.toList := hpending
      rw [hempty] at hnone
      contradiction
    · have hnone := hunsaved _ hsaved
      simp [savedOpsLog, hmanifest, hopsLog, Except.toOption] at hnone

/-- Two files are added around a save, each of them while the others wait. -/
def quietOps : List SharedOp := twoAdds ++ [.save false]

def quietTurns : List ℕ := [0, 1, 0, 0, 2, 1, 2, 1]

theorem quiet_adds_kept :
    AllReturned (quietTurns.foldl sharedTurn (JaxFs.sharedMount emptyMount quietOps)) ∧
      NothingLost emptyMount quietOps
        (quietTurns.foldl sharedTurn (JaxFs.sharedMount emptyMount quietOps)) := by
  have hfacts : AlongRun sharedTurn QuietTurn (JaxFs.sharedMount emptyMount quietOps) quietTurns ∧
      ∀ task ∈ (quietTurns.foldl sharedTurn (JaxFs.sharedMount emptyMount quietOps)).tasks,
        task.succeeded = true := by
    decide +kernel
  have hreturned := allReturned_iff.mpr hfacts.2
  have hapart : quietOps.Pairwise SharedOp.Apart := by
    simp [quietOps, twoAdds, SharedOp.Apart, SharedOp.paths, TreeAction.paths, DisjointPaths]
  exact ⟨hreturned, sharedMount_loses_nothing hapart hfacts.1 hreturned⟩

end Reference

end JaxFs

import JaxFs.MountLoops

/-!
# Stages of a mount

What holds of a mount without a request, and of a mount at each point of a call for it.  A
turn of a call takes its own mount from one stage to the next and leaves the other mounts at
theirs.
-/

namespace JaxFs

open MountManager

namespace MountManager

def statusOf (manager : MountManager) (id : Uuid) : Option MountStatus :=
  (manager.table.get id).map FuseMountRow.status

/-! ## A mount without a request -/

/-- What holds of a mount that no request is working on.  A row is stale that an earlier daemon
has left with the status of a running mount. -/
structure Settled (stale : Uuid → Prop) (manager : MountManager) (id : Uuid) : Prop where
  listed : (manager.mounts.get? id).isSome = true → (manager.statusOf id).isSome = true
  running : manager.statusOf id = some .running →
    manager.running id = true ∨ (stale id ∧ manager.mounts.get? id = none)
  live : manager.running id = true →
    manager.statusOf id = some .running ∨ manager.statusOf id = some .error

/-- A mount without a session, whose row does not say that it is running. -/
structure Quiet (manager : MountManager) (id : Uuid) : Prop where
  listed : (manager.mounts.get? id).isSome = true → (manager.statusOf id).isSome = true
  status : manager.statusOf id ≠ some .running
  idle : manager.running id = false

theorem Quiet.settled {manager : MountManager} {id : Uuid} (h : manager.Quiet id)
    (stale : Uuid → Prop) : manager.Settled stale id := by
  constructor
  · exact h.listed
  · exact fun hstatus => absurd hstatus h.status
  · intro hrunning
    rw [h.idle] at hrunning
    contradiction

/-! ## Where a call stands -/

/-- The mount that a call is for. -/
def Call.subject? : Call → Option Uuid
  | .start id _ _ => some id
  | .setError id _ => some id
  | .stop id _ => some id
  | .remove id => some id
  | .deleteRow id => some id
  | _ => none

/-- What holds of the mount of a call at the point where it has stopped. -/
def Call.At (stale : Uuid → Prop) (manager : MountManager) : Call → Prop
  | .start id _ .get => manager.Settled stale id
  | .start id _ (.check _) => manager.Settled stale id ∧ (manager.statusOf id).isSome = true
  | .start id _ (.starting _) =>
      manager.running id = false ∧ (manager.statusOf id).isSome = true ∧
        manager.Settled stale id
  | .start id _ (.load _) => manager.running id = false ∧ manager.statusOf id = some .starting
  | .start id _ (.insert _ _) =>
      manager.running id = false ∧ manager.statusOf id = some .starting
  | .start id _ (.running _) => manager.running id = true ∧ manager.statusOf id = some .starting
  | .setError id _ => manager.Settled stale id
  | .stop id .stopping => manager.Settled stale id
  | .stop id .take =>
      ((manager.mounts.get? id).isSome = true → (manager.statusOf id).isSome = true) ∧
        manager.statusOf id ≠ some .running
  | .stop id (.unmount _) => manager.Quiet id
  | .stop id .stopped => manager.Quiet id
  | .remove id => manager.Quiet id
  | .deleteRow id => manager.Quiet id ∧ manager.mounts.get? id = none
  | _ => True

/-- What holds of the mount of a call that has ended. -/
def Call.Ended (stale : Uuid → Prop) (manager : MountManager) : Call → Prop
  | .start id _ _ => manager.Settled stale id
  | .setError id _ => manager.Settled stale id
  | .stop id _ => manager.Quiet id
  | .remove id => manager.Quiet id ∧ manager.mounts.get? id = none
  | .deleteRow id => manager.Settled stale id
  | _ => True

theorem Call.Ended.settled {stale : Uuid → Prop} {manager : MountManager} {call : Call}
    (h : call.Ended stale manager) {id : Uuid} (hid : call.subject? = some id) :
    manager.Settled stale id := by
  cases call with
  | start other auto point =>
      cases hid
      exact h
  | setError other error =>
      cases hid
      exact h
  | stop other point =>
      cases hid
      exact Quiet.settled h stale
  | remove other =>
      cases hid
      exact Quiet.settled h.1 stale
  | deleteRow other =>
      cases hid
      exact h
  | _ => contradiction

/-- A call that has not begun. -/
def Call.Initial (call : Call) : Prop :=
  ∃ id, (∃ auto, call = .start id auto .get) ∨ call = .stop id .stopping

theorem Call.Initial.at {stale : Uuid → Prop} {manager : MountManager} {call : Call}
    (h : call.Initial) : ∃ id, call.subject? = some id ∧
      (manager.Settled stale id → call.At stale manager) := by
  obtain ⟨id, hcall⟩ := h
  refine ⟨id, ?_⟩
  rcases hcall with ⟨auto, rfl⟩ | rfl
  · exact ⟨rfl, fun h => h⟩
  · exact ⟨rfl, fun h => h⟩

/-- The next call of a task: the steps of a `delete`, or a call that has not begun. -/
def Call.Follows (call next : Call) : Prop :=
  next.Initial ∨ (∃ id point, call = .stop id point ∧ next = .remove id) ∨
    ∃ id, call = .remove id ∧ next = .deleteRow id

/-! ## The other mounts -/

/-- The mount is as it was, or its row has just been made. -/
structure Undisturbed (manager manager' : MountManager) (id : Uuid) : Prop where
  mounts : manager'.mounts.get? id = manager.mounts.get? id
  status : manager'.statusOf id = manager.statusOf id ∨
    (manager.statusOf id = none ∧ manager'.statusOf id = some .stopped)

section

variable {stale : Uuid → Prop} {manager manager' : MountManager} {id : Uuid}

theorem Undisturbed.running (h : Undisturbed manager manager' id) :
    manager'.running id = manager.running id := by
  unfold MountManager.running
  rw [h.mounts]

theorem Undisturbed.listed (h : Undisturbed manager manager' id)
    (hlisted : (manager.mounts.get? id).isSome = true → (manager.statusOf id).isSome = true) :
    (manager'.mounts.get? id).isSome = true → (manager'.statusOf id).isSome = true := by
  rw [h.mounts]
  intro hsome
  rcases h.status with hsame | ⟨-, hnew⟩
  · rw [hsame]
    exact hlisted hsome
  · rw [hnew]
    rfl

theorem Undisturbed.not_running (h : Undisturbed manager manager' id)
    (hstatus : manager.statusOf id ≠ some .running) :
    manager'.statusOf id ≠ some .running := by
  rcases h.status with hsame | ⟨-, hnew⟩
  · rw [hsame]
    exact hstatus
  · rw [hnew]
    decide

/-- A row that is there keeps its status. -/
theorem Undisturbed.status_of_isSome (h : Undisturbed manager manager' id)
    (hsome : (manager.statusOf id).isSome = true) :
    manager'.statusOf id = manager.statusOf id := by
  rcases h.status with hsame | ⟨hnone, -⟩
  · exact hsame
  · rw [hnone] at hsome
    contradiction

theorem Settled.undisturbed (h : manager.Settled stale id)
    (hsame : Undisturbed manager manager' id) : manager'.Settled stale id := by
  constructor
  · exact hsame.listed h.listed
  · intro hstatus
    rcases hsame.status with heq | ⟨-, hnew⟩
    · rw [heq] at hstatus
      rw [hsame.running, hsame.mounts]
      exact h.running hstatus
    · rw [hnew] at hstatus
      contradiction
  · intro hrunning
    rw [hsame.running] at hrunning
    rcases h.live hrunning with hstatus | hstatus
    · rw [hsame.status_of_isSome (by rw [hstatus]; rfl)]
      exact Or.inl hstatus
    · rw [hsame.status_of_isSome (by rw [hstatus]; rfl)]
      exact Or.inr hstatus

theorem Quiet.undisturbed (h : manager.Quiet id) (hsame : Undisturbed manager manager' id) :
    manager'.Quiet id :=
  ⟨hsame.listed h.listed, hsame.not_running h.status, hsame.running.trans h.idle⟩

theorem Call.At.undisturbed {call : Call} (h : call.At stale manager)
    (hsame : ∀ id, call.subject? = some id → Undisturbed manager manager' id) :
    call.At stale manager' := by
  have hkeeps : ∀ {id status}, call.subject? = some id → manager.statusOf id = some status →
      manager'.statusOf id = some status := by
    intro id status hid hstatus
    rw [(hsame id hid).status_of_isSome (by rw [hstatus]; rfl), hstatus]
  cases call with
  | start id auto point =>
      have hid := hsame id rfl
      cases point with
      | get => exact Settled.undisturbed h hid
      | check config =>
          refine ⟨h.1.undisturbed hid, ?_⟩
          rw [hid.status_of_isSome h.2]
          exact h.2
      | starting config =>
          refine ⟨hid.running.trans h.1, ?_, h.2.2.undisturbed hid⟩
          rw [hid.status_of_isSome h.2.1]
          exact h.2.1
      | load config => exact ⟨hid.running.trans h.1, hkeeps rfl h.2⟩
      | insert config session => exact ⟨hid.running.trans h.1, hkeeps rfl h.2⟩
      | running config => exact ⟨hid.running.trans h.1, hkeeps rfl h.2⟩
  | setError id error => exact Settled.undisturbed h (hsame id rfl)
  | stop id point =>
      have hid := hsame id rfl
      cases point with
      | stopping => exact Settled.undisturbed h hid
      | take => exact ⟨hid.listed h.1, hid.not_running h.2⟩
      | unmount mountPoint => exact Quiet.undisturbed h hid
      | stopped => exact Quiet.undisturbed h hid
  | remove id => exact Quiet.undisturbed h (hsame id rfl)
  | deleteRow id => exact ⟨h.1.undisturbed (hsame id rfl), (hsame id rfl).mounts.trans h.2⟩
  | _ => trivial

end

/-! ## What a turn does to other mounts -/

section

variable {outside : Outside} {manager manager' : MountManager} {id other : Uuid}

theorem Undisturbed.refl : Undisturbed manager manager id := ⟨rfl, Or.inl rfl⟩

theorem undisturbed_setStatus (h : other ≠ id) (status : MountStatus)
    (errorMessage : Option String) :
    Undisturbed manager (manager.setStatus id status errorMessage) other := by
  refine ⟨rfl, Or.inl ?_⟩
  unfold statusOf
  rw [get_setStatus_of_ne manager h]

theorem undisturbed_store (h : other ≠ id) (live : LiveHandle) :
    Undisturbed manager (manager.store id live) other :=
  ⟨FinMap.get?_put_of_ne _ _ (Ne.symm h), Or.inl rfl⟩

theorem undisturbed_takeSession (h : other ≠ id) :
    Undisturbed manager (manager.takeSession id) other := by
  unfold takeSession
  split
  · exact .refl
  · exact undisturbed_store h _

theorem undisturbed_remove (h : other ≠ id) : Undisturbed manager (manager.remove id) other := by
  refine ⟨?_, Or.inl rfl⟩
  unfold remove
  rw [FinMap.get?_erase, if_neg (Ne.symm h)]

/-- The managers of both branches. -/
theorem undisturbed_query {go : Progress} {fail : MountManagerError → Progress}
    (hgo : Undisturbed manager go.manager id)
    (hfail : ∀ error, Undisturbed manager (fail error).manager id) :
    Undisturbed manager (query outside go fail).manager id := by
  unfold query
  cases outside.query with
  | none => exact hgo
  | some message => exact hfail _

theorem undisturbed_createTurn (newMount : NewMount) (point : CreatePoint) :
    Undisturbed manager (createTurn outside manager newMount point).manager id := by
  cases point with
  | check =>
      refine undisturbed_query ?_ (fun _ => .refl)
      split_ifs
      · split <;> exact .refl
      · exact .refl
  | insert =>
      refine undisturbed_query ?_ (fun _ => .refl)
      split
      · rename_i table htable
        obtain ⟨hnone, hget⟩ := FuseMounts.get_insert htable
        refine ⟨rfl, ?_⟩
        unfold statusOf Progress.goOn
        dsimp only
        rw [hget]
        split_ifs with heq
        · right
          rw [heq, hnone]
          exact ⟨rfl, rfl⟩
        · exact Or.inl rfl
      · exact .refl
  | get mountId =>
      refine undisturbed_query ?_ (fun _ => .refl)
      split <;> exact .refl

theorem undisturbed_updateTurn (changed : Uuid) (changes : MountChanges) (point : UpdatePoint) :
    Undisturbed manager (updateTurn outside manager changed changes point).manager id := by
  cases point with
  | get =>
      refine undisturbed_query ?_ (fun _ => .refl)
      split <;> exact .refl
  | write existing =>
      refine undisturbed_query ?_ (fun _ => .refl)
      split
      · rename_i table htable
        refine ⟨rfl, Or.inl ?_⟩
        unfold statusOf Progress.goOn
        dsimp only
        rw [FuseMounts.get_update htable, Option.map_map]
        congr 1
        funext row
        dsimp only [Function.comp_apply]
        split_ifs <;> rfl
      · exact .refl
  | reread => exact undisturbed_query .refl (fun _ => .refl)

theorem undisturbed_startTurn (h : other ≠ id) (auto : Bool) (point : StartPoint) :
    Undisturbed manager (startTurn outside manager id auto point).manager other := by
  cases point with
  | get =>
      refine undisturbed_query ?_ (fun _ => .refl)
      split <;> exact .refl
  | check config =>
      unfold startTurn
      dsimp only
      split_ifs <;> exact .refl
  | starting config => exact undisturbed_query (undisturbed_setStatus h _ _) (fun _ => .refl)
  | load config =>
      unfold startTurn
      cases outside.load with
      | some error => exact .refl
      | none => cases outside.spawn <;> exact ⟨rfl, Or.inl rfl⟩
  | insert config session => exact undisturbed_store h _
  | running config => exact undisturbed_query (undisturbed_setStatus h _ _) (fun _ => .refl)

theorem undisturbed_stopTurn (h : other ≠ id) (point : StopPoint) :
    Undisturbed manager (stopTurn outside manager id point).manager other := by
  cases point with
  | stopping => exact undisturbed_query (undisturbed_setStatus h _ _) (fun _ => .refl)
  | take =>
      unfold stopTurn
      dsimp only
      split
      · exact undisturbed_takeSession h
      · refine undisturbed_query ?_ (fun _ => .refl)
        split <;> exact .refl
  | unmount mountPoint =>
      unfold stopTurn
      cases outside.unmount <;> exact .refl
  | stopped => exact undisturbed_query (undisturbed_setStatus h _ _) (fun _ => .refl)

theorem undisturbed_turn {call : Call} (h : call.subject? ≠ some other) :
    Undisturbed manager (call.turn outside manager).manager other := by
  have hne : ∀ {id}, call.subject? = some id → other ≠ id := by
    intro id hid heq
    rw [heq] at h
    exact h hid
  cases call with
  | createMount newMount point => exact undisturbed_createTurn newMount point
  | update id changes point => exact undisturbed_updateTurn id changes point
  | start id auto point => exact undisturbed_startTurn (hne rfl) auto point
  | setError id error =>
      exact undisturbed_query (undisturbed_setStatus (hne rfl) _ _) (fun _ => .refl)
  | stop id point => exact undisturbed_stopTurn (hne rfl) point
  | remove id => exact undisturbed_remove (hne rfl)
  | deleteRow id =>
      refine undisturbed_query ⟨rfl, Or.inl ?_⟩ (fun _ => .refl)
      unfold statusOf Progress.finish
      dsimp only
      rw [FuseMounts.get_delete, if_neg (hne rfl)]
  | startAuto => exact undisturbed_query .refl (fun _ => .refl)
  | stopAll => exact .refl

end

/-! ## What a turn does to its own mount -/

/-- What has become of a call after its turn. -/
inductive Proceeds (stale : Uuid → Prop) (manager : MountManager) (call : Call)
    (progress : Progress) : Prop
  | ended (calls : progress.calls = []) (ended : call.Ended stale progress.manager)
  | goesOn (next : Call) (calls : progress.calls = [next])
      (here : next.At stale progress.manager) (subject : next.subject? = call.subject?)
      (follows : ∀ after, call.Follows after → next.Follows after)
  | lists (subject : call.subject? = none) (same : progress.manager = manager)
      (initial : ∀ next ∈ progress.calls, next.Initial)

section

variable {stale : Uuid → Prop} {outside : Outside} {manager : MountManager} {id : Uuid}

theorem statusOf_setStatus (status : MountStatus) (errorMessage : Option String) :
    (manager.setStatus id status errorMessage).statusOf id =
      (manager.statusOf id).map (fun _ => status) := by
  unfold statusOf
  rw [get_setStatus, Option.map_map, Option.map_map]
  congr 1
  funext row
  simp

/-- A row that is there has the status that it is given. -/
theorem statusOf_setStatus_of_isSome (h : (manager.statusOf id).isSome = true)
    (status : MountStatus) (errorMessage : Option String) :
    (manager.setStatus id status errorMessage).statusOf id = some status := by
  obtain ⟨old, hold⟩ := Option.isSome_iff_exists.mp h
  rw [statusOf_setStatus, hold]
  rfl

theorem Settled.row (h : manager.Settled stale id) (hrunning : manager.running id = true) :
    (manager.statusOf id).isSome = true := by
  rcases h.live hrunning with hstatus | hstatus <;> simp [hstatus]

/-- After a call that is no step of a `delete` comes one that has not begun. -/
theorem initial_of_follows {call after : Call} (hstop : ∀ id point, call ≠ .stop id point)
    (hremove : ∀ id, call ≠ .remove id) (h : call.Follows after) : after.Initial := by
  rcases h with hinitial | ⟨other, point, heq, -⟩ | ⟨other, heq, -⟩
  · exact hinitial
  · exact absurd heq (hstop other point)
  · exact absurd heq (hremove other)

theorem follows_stop {point next : StopPoint} {after : Call}
    (h : (Call.stop id point).Follows after) : (Call.stop id next).Follows after := by
  rcases h with hinitial | ⟨other, point', heq, hafter⟩ | ⟨other, heq, -⟩
  · exact Or.inl hinitial
  · cases heq
    exact Or.inr (Or.inl ⟨id, next, rfl, hafter⟩)
  · cases heq

theorem Proceeds.started {auto : Bool} {point next : StartPoint} {manager' : MountManager}
    (here : (Call.start id auto next).At stale manager') :
    Proceeds stale manager (.start id auto point) (.goOn manager' (.start id auto next)) :=
  .goesOn _ rfl here rfl (fun _ h => Or.inl (initial_of_follows (by simp) (by simp) h))

theorem Proceeds.failed {auto : Bool} {point : StartPoint} (h : manager.Settled stale id)
    (error : MountManagerError) :
    Proceeds stale manager (.start id auto point) (manager.startFailed id auto error) := by
  cases auto with
  | false => exact .ended rfl h
  | true =>
      exact .goesOn _ rfl h rfl
        (fun _ h => Or.inl (initial_of_follows (by simp) (by simp) h))

theorem settled_of_starting (hrunning : manager.running id = false)
    (hstatus : manager.statusOf id = some .starting) : manager.Settled stale id := by
  apply Quiet.settled
  constructor
  · simp [hstatus]
  · simp [hstatus]
  · exact hrunning

theorem proceeds_startTurn {auto : Bool} {point : StartPoint} (hquery : outside.query = none)
    (h : (Call.start id auto point).At stale manager) :
    Proceeds stale manager (.start id auto point) (startTurn outside manager id auto point) := by
  cases point with
  | get =>
      unfold startTurn query
      rw [hquery]
      dsimp only
      cases hget : manager.table.get id with
      | none => exact .failed h _
      | some config =>
          refine .started ⟨h, ?_⟩
          unfold statusOf
          rw [hget]
          rfl
  | check config =>
      unfold startTurn
      dsimp only
      split_ifs with hrunning
      · exact .failed h.1 _
      · exact .started ⟨by simpa using hrunning, h.2, h.1⟩
  | starting config =>
      unfold startTurn query
      rw [hquery]
      exact .started ⟨h.1, statusOf_setStatus_of_isSome h.2.1 _ _⟩
  | load config =>
      unfold startTurn
      cases outside.load with
      | some error => exact .failed (settled_of_starting h.1 h.2) _
      | none =>
          cases outside.spawn with
          | some error => exact .failed (settled_of_starting h.1 h.2) _
          | none => exact .started ⟨h.1, h.2⟩
  | insert config session =>
      refine .started ⟨?_, h.2⟩
      rw [running_store, if_pos rfl]
      rfl
  | running config =>
      unfold startTurn query
      rw [hquery]
      have hsome : (manager.statusOf id).isSome = true := by simp [h.2]
      have hstatus := statusOf_setStatus_of_isSome hsome .running none
      refine .ended rfl ⟨fun _ => ?_, fun _ => Or.inl h.1, fun _ => Or.inl hstatus⟩
      exact Option.isSome_iff_exists.mpr ⟨_, hstatus⟩

/-- A mount that is not live has nothing to be listed for. -/
theorem quiet_of_not_listed (hget : manager.mounts.get? id = none)
    (hstatus : manager.statusOf id ≠ some .running) : manager.Quiet id := by
  constructor
  · simp [hget]
  · exact hstatus
  · simp [running, hget]

theorem quiet_takeSession {live : LiveHandle} (hget : manager.mounts.get? id = some live)
    (hlisted : (manager.mounts.get? id).isSome = true → (manager.statusOf id).isSome = true)
    (hstatus : manager.statusOf id ≠ some .running) : (manager.takeSession id).Quiet id := by
  have htable : (manager.takeSession id).statusOf id = manager.statusOf id := by
    unfold takeSession
    rw [hget]
    rfl
  constructor
  · intro _
    rw [htable]
    exact hlisted (by simp [hget])
  · rw [htable]
    exact hstatus
  · by_contra hrunning
    have hne := (running_takeSession manager id id).mp (by simpa using hrunning)
    exact hne.2 rfl

theorem quiet_setStatus (h : manager.Quiet id) {status : MountStatus} (hne : status ≠ .running)
    (errorMessage : Option String) : (manager.setStatus id status errorMessage).Quiet id := by
  have hstatus := @statusOf_setStatus manager id status errorMessage
  constructor
  · intro hlisted
    rw [hstatus, Option.isSome_map]
    exact h.listed hlisted
  · rw [hstatus]
    simp [Option.map_eq_some_iff, hne]
  · exact h.idle

theorem proceeds_stopTurn {point : StopPoint} (hquery : outside.query = none)
    (h : (Call.stop id point).At stale manager) :
    Proceeds stale manager (.stop id point) (stopTurn outside manager id point) := by
  cases point with
  | stopping =>
      unfold stopTurn query
      rw [hquery]
      refine .goesOn _ rfl ⟨?_, ?_⟩ rfl (fun _ => follows_stop)
      · intro hlisted
        rw [Progress.goOn, statusOf_setStatus, Option.isSome_map]
        exact Settled.listed h hlisted
      · rw [Progress.goOn, statusOf_setStatus]
        simp [Option.map_eq_some_iff]
  | take =>
      unfold stopTurn
      dsimp only
      cases hget : manager.mounts.get? id with
      | some live =>
          exact .goesOn _ rfl (quiet_takeSession hget h.1 h.2) rfl (fun _ => follows_stop)
      | none =>
          unfold query
          rw [hquery]
          dsimp only
          split
          · exact .goesOn _ rfl (quiet_of_not_listed hget h.2) rfl (fun _ => follows_stop)
          · exact .ended rfl (quiet_of_not_listed hget h.2)
  | unmount mountPoint =>
      unfold stopTurn
      cases outside.unmount with
      | some error => exact .ended rfl h
      | none => exact .goesOn _ rfl h rfl (fun _ => follows_stop)
  | stopped =>
      unfold stopTurn query
      rw [hquery]
      exact .ended rfl (quiet_setStatus h (by decide) none)

theorem proceeds_createTurn (newMount : NewMount) (point : CreatePoint) :
    Proceeds stale manager (.createMount newMount point)
      (createTurn outside manager newMount point) := by
  have hfollows : ∀ point' after, (Call.createMount newMount point).Follows after →
      (Call.createMount newMount point').Follows after :=
    fun point' after h => Or.inl (initial_of_follows (by simp) (by simp) h)
  unfold createTurn
  cases point with
  | check =>
      unfold query
      cases outside.query with
      | some message => exact .ended rfl trivial
      | none =>
          dsimp only
          split_ifs
          · split
            · exact .goesOn _ rfl trivial rfl (hfollows _)
            · exact .ended rfl trivial
          · exact .ended rfl trivial
  | insert =>
      unfold query
      cases outside.query with
      | some message => exact .ended rfl trivial
      | none =>
          dsimp only
          split
          · exact .goesOn _ rfl trivial rfl (hfollows _)
          · exact .ended rfl trivial
  | get mountId =>
      unfold query
      cases outside.query with
      | some message => exact .ended rfl trivial
      | none =>
          dsimp only
          split <;> exact .ended rfl trivial

theorem proceeds_updateTurn (changed : Uuid) (changes : MountChanges) (point : UpdatePoint) :
    Proceeds stale manager (.update changed changes point)
      (updateTurn outside manager changed changes point) := by
  have hfollows : ∀ point' after, (Call.update changed changes point).Follows after →
      (Call.update changed changes point').Follows after :=
    fun point' after h => Or.inl (initial_of_follows (by simp) (by simp) h)
  unfold updateTurn
  cases point with
  | get =>
      unfold query
      cases outside.query with
      | some message => exact .ended rfl trivial
      | none =>
          dsimp only
          split
          · exact .ended rfl trivial
          · exact .goesOn _ rfl trivial rfl (hfollows _)
  | write existing =>
      unfold query
      cases outside.query with
      | some message => exact .ended rfl trivial
      | none =>
          dsimp only
          split
          · exact .goesOn _ rfl trivial rfl (hfollows _)
          · exact .ended rfl trivial
  | reread =>
      unfold query
      cases outside.query <;> exact .ended rfl trivial

theorem proceeds_turn {call : Call} (hquery : outside.query = none)
    (h : call.At stale manager) : Proceeds stale manager call (call.turn outside manager) := by
  cases call with
  | createMount newMount point => exact proceeds_createTurn newMount point
  | update id changes point => exact proceeds_updateTurn id changes point
  | start id auto point => exact proceeds_startTurn hquery h
  | setError id error =>
      have hsettled : manager.Settled stale id := h
      unfold Call.turn query
      rw [hquery]
      have hstatus := @statusOf_setStatus manager id .error (some error.display)
      refine .ended rfl ⟨?_, ?_, ?_⟩
      · intro hlisted
        rw [hstatus, Option.isSome_map]
        exact hsettled.listed hlisted
      · rw [hstatus]
        simp [Option.map_eq_some_iff]
      · intro hrunning
        exact Or.inr (statusOf_setStatus_of_isSome (hsettled.row hrunning) _ _)
  | stop id point => exact proceeds_stopTurn hquery h
  | remove id =>
      have hquiet : manager.Quiet id := h
      have hnone : (manager.remove id).mounts.get? id = none := by
        unfold MountManager.remove
        rw [FinMap.get?_erase, if_pos rfl]
      exact .ended rfl ⟨quiet_of_not_listed hnone hquiet.status, hnone⟩
  | deleteRow id =>
      unfold Call.turn query
      rw [hquery]
      have hnone : ({ manager with table := (manager.table.delete id).1 } :
          MountManager).statusOf id = none := by
        unfold statusOf
        rw [FuseMounts.get_delete, if_pos rfl]
        rfl
      have hquiet : ({ manager with table := (manager.table.delete id).1 } :
          MountManager).Quiet id := by
        refine quiet_of_not_listed h.2 ?_
        rw [hnone]
        decide
      exact .ended rfl (hquiet.settled stale)
  | startAuto =>
      unfold Call.turn query
      rw [hquery]
      refine .lists rfl rfl ?_
      intro next hnext
      obtain ⟨row, -, rfl⟩ := List.mem_map.mp hnext
      exact ⟨row.mountId, Or.inl ⟨true, rfl⟩⟩
  | stopAll =>
      refine .lists rfl rfl ?_
      intro next hnext
      obtain ⟨id, -, rfl⟩ := List.mem_map.mp hnext
      exact ⟨id, Or.inr rfl⟩

end

end MountManager

end JaxFs

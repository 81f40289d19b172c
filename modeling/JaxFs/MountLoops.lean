import JaxFs.MountSessions

/-!
# Requests that run alone

`start_auto` and `stop_all` go through all mounts when the daemon comes up and goes down.
With no other request under way, the first leaves every mount that it has to start running or
with an error in its row, and the second leaves no session behind, whatever fails.
-/

namespace JaxFs

open MountManager

/-! ## A task that runs alone -/

def MountTask.alone (outsides : List Outside) (manager : MountManager) (task : MountTask) :
    MountManager × MountTask :=
  outsides.foldl (fun now outside => MountTask.turn outside now.1 now.2) (manager, task)

theorem MountDaemon.run_alone (manager : MountManager) (tasks : List MountTask)
    (task : MountTask) (outsides : List Outside) :
    MountDaemon.run ⟨manager, tasks ++ [task]⟩ (outsides.map (.turn tasks.length)) =
      ⟨(task.alone outsides manager).1, tasks ++ [(task.alone outsides manager).2]⟩ := by
  induction outsides generalizing manager task with
  | nil => rfl
  | cons outside rest ih =>
      have hstep : MountDaemon.step ⟨manager, tasks ++ [task]⟩ (.turn tasks.length outside) =
          ⟨(task.turn outside manager).1, tasks ++ [(task.turn outside manager).2]⟩ := by
        have htask : (⟨manager, tasks ++ [task]⟩ : MountDaemon).tasks[tasks.length]? =
            some task := List.getElem?_concat_length
        change Interleaved.turn (MountTask.turn outside) _ tasks.length = _
        rw [Interleaved.turn_of_some htask]
        simp
      rw [List.map_cons, MountDaemon.run, List.foldl_cons, hstep]
      exact ih _ _

/-- A task that runs alone comes to its end when every turn leaves fewer turns, and what every
turn keeps holds then. -/
theorem MountTask.alone_ends {keeps : MountManager → List Call → Prop} {allowed : Outside → Prop}
    {left : List Call → ℕ} (hnil : left [] = 0) (hleft : ∀ call rest, 0 < left (call :: rest))
    (hturn : ∀ manager call rest outside, allowed outside → keeps manager (call :: rest) →
      keeps (call.turn outside manager).manager ((call.turn outside manager).calls ++ rest) ∧
        left ((call.turn outside manager).calls ++ rest) < left (call :: rest))
    {outsides : List Outside} (houtsides : ∀ outside ∈ outsides, allowed outside)
    {manager : MountManager} {task : MountTask} (h : keeps manager task.calls)
    (hlength : left task.calls ≤ outsides.length) :
    (task.alone outsides manager).2.calls = [] ∧ keeps (task.alone outsides manager).1 [] := by
  induction outsides generalizing manager task with
  | nil =>
      have hcalls : task.calls = [] := by
        cases hcalls : task.calls with
        | nil => rfl
        | cons call rest =>
            have hpos := hleft call rest
            rw [hcalls, List.length_nil] at hlength
            omega
      refine ⟨hcalls, ?_⟩
      rw [hcalls] at h
      exact h
  | cons outside rest ih =>
      have hrest := fun outside houtside => houtsides outside (List.mem_cons_of_mem _ houtside)
      unfold MountTask.alone
      rw [List.foldl_cons]
      unfold MountTask.turn
      cases hcalls : task.calls with
      | nil =>
          rw [hcalls] at h
          refine ih hrest ?_ ?_
          · dsimp only
            rw [hcalls]
            exact h
          · dsimp only
            rw [hcalls, hnil]
            exact Nat.zero_le _
      | cons call calls =>
          rw [hcalls, List.length_cons] at hlength
          rw [hcalls] at h
          obtain ⟨hkeeps, hfewer⟩ :=
            hturn manager call calls outside (houtsides outside List.mem_cons_self) h
          refine ih hrest hkeeps ?_
          change left ((call.turn outside manager).calls ++ calls) ≤ rest.length
          omega

namespace MountManager

/-! ## The turns that are left of a call -/

def StopPoint.turnsLeft : StopPoint → ℕ
  | .stopping => 4
  | .take => 3
  | .unmount _ => 2
  | .stopped => 1

/-- One more than it takes, for the error of a start that fails. -/
def StartPoint.turnsLeft : StartPoint → ℕ
  | .get => 7
  | .check _ => 6
  | .starting _ => 5
  | .load _ => 4
  | .insert _ _ => 3
  | .running _ => 2

def Call.turnsLeft : Call → ℕ
  | .start _ _ point => point.turnsLeft
  | .stop _ point => point.turnsLeft
  | _ => 1

def turnsLeft (calls : List Call) : ℕ := (calls.map Call.turnsLeft).sum

theorem turnsLeft_append (calls calls' : List Call) :
    turnsLeft (calls ++ calls') = turnsLeft calls + turnsLeft calls' := by
  simp [turnsLeft]

theorem turnsLeft_pos (call : Call) (rest : List Call) : 0 < turnsLeft (call :: rest) := by
  change 0 < (List.map Call.turnsLeft (call :: rest)).sum
  rw [List.map_cons, List.sum_cons]
  have hcall : 0 < call.turnsLeft := by
    cases call with
    | start id auto point => cases point <;> simp [Call.turnsLeft, StartPoint.turnsLeft]
    | stop id point => cases point <;> simp [Call.turnsLeft, StopPoint.turnsLeft]
    | _ => exact Nat.one_pos
  omega

/-! ## Stopping all mounts -/

/-- What a turn of a `stop` leaves to do, and which mounts are running after it. -/
structure Stops (manager : MountManager) (id : Uuid) (point : StopPoint) (progress : Progress) :
    Prop where
  calls : ∀ call ∈ progress.calls, ∃ next, call = .stop id next
  fewer : turnsLeft progress.calls < point.turnsLeft
  stopping : point = .stopping → progress.calls = [.stop id .take]
  running : ∀ other, progress.manager.running other = true →
    manager.running other = true ∧ (other = id → point ≠ .take)

theorem Stops.goOn {manager manager' : MountManager} {id : Uuid} {point next : StopPoint}
    (hnext : next.turnsLeft < point.turnsLeft) (hpoint : point = .stopping → next = .take)
    (hrunning : ∀ other, manager'.running other = true →
      manager.running other = true ∧ (other = id → point ≠ .take)) :
    Stops manager id point (.goOn manager' (.stop id next)) := by
  constructor
  · simp [Progress.goOn]
  · simpa [Progress.goOn, MountManager.turnsLeft, Call.turnsLeft] using hnext
  · intro h
    rw [hpoint h]
    rfl
  · exact hrunning

theorem Stops.finish {manager manager' : MountManager} {id : Uuid} {point : StopPoint}
    (hpoint : point ≠ .stopping)
    (hrunning : ∀ other, manager'.running other = true →
      manager.running other = true ∧ (other = id → point ≠ .take))
    (result : Except MountManagerError Answer) :
    Stops manager id point (.finish manager' result) := by
  constructor
  · simp [Progress.finish]
  · cases point <;> simp [Progress.finish, MountManager.turnsLeft, StopPoint.turnsLeft]
  · exact fun h => absurd h hpoint
  · exact hrunning

theorem running_takeSession (manager : MountManager) (id other : Uuid) :
    (manager.takeSession id).running other = true ↔
      manager.running other = true ∧ other ≠ id := by
  unfold takeSession
  cases hget : manager.mounts.get? id with
  | none =>
      by_cases hother : other = id
      · simp [running, hother, hget]
      · simp [hother]
  | some live =>
      unfold running store
      dsimp only
      rw [FinMap.get?_put]
      by_cases hother : id = other
      · simp [hother]
      · simp [hother, Ne.symm hother]

theorem stops_stopTurn (outside : Outside) (manager : MountManager) (id : Uuid)
    (point : StopPoint) : Stops manager id point (stopTurn outside manager id point) := by
  have hsame : ∀ other, manager.running other = true → point ≠ .take →
      manager.running other = true ∧ (other = id → point ≠ .take) :=
    fun other hother hpoint => ⟨hother, fun _ => hpoint⟩
  cases point with
  | stopping =>
      unfold stopTurn query
      cases outside.query with
      | none => exact .goOn (by decide) (fun _ => rfl) (fun other h => hsame other h (by simp))
      | some message =>
          exact .goOn (by decide) (fun _ => rfl) (fun other h => hsame other h (by simp))
  | take =>
      unfold stopTurn
      dsimp only
      cases hget : manager.mounts.get? id with
      | some live =>
          refine .goOn (by simp [StopPoint.turnsLeft]) (by simp) (fun other hother => ?_)
          obtain ⟨hrunning, hne⟩ := (running_takeSession manager id other).mp hother
          exact ⟨hrunning, fun heq => absurd heq hne⟩
      | none =>
          have hnone : ∀ other, manager.running other = true →
              manager.running other = true ∧ (other = id → StopPoint.take ≠ .take) := by
            intro other hother
            refine ⟨hother, fun heq => ?_⟩
            rw [heq, running, hget] at hother
            contradiction
          dsimp only
          unfold query
          cases outside.query with
          | some message => exact .finish (by simp) hnone _
          | none =>
              dsimp only
              split
              · exact .goOn (by simp [StopPoint.turnsLeft]) (by simp) hnone
              · exact .finish (by simp) hnone _
  | unmount mountPoint =>
      unfold stopTurn
      cases outside.unmount with
      | some error => exact .finish (by simp) (fun other h => hsame other h (by simp)) _
      | none =>
          exact .goOn (by simp [StopPoint.turnsLeft]) (by simp)
            (fun other h => hsame other h (by simp))
  | stopped =>
      unfold stopTurn query
      cases outside.query with
      | none =>
          refine .finish (by simp) ?_ _
          exact fun other h => hsame other h (by simp)
      | some message => exact .finish (by simp) (fun other h => hsame other h (by simp)) _

/-- The calls are stops, and the mounts that are running have theirs ahead of them. -/
structure StopsRunning (manager : MountManager) (calls : List Call) : Prop where
  stops : ∀ call ∈ calls, ∃ id point, call = .stop id point
  running : ∀ id, manager.running id = true →
    .stop id .stopping ∈ calls ∨ .stop id .take ∈ calls

theorem StopsRunning.turn {manager : MountManager} {call : Call} {rest : List Call}
    (h : StopsRunning manager (call :: rest)) (outside : Outside) :
    StopsRunning (call.turn outside manager).manager ((call.turn outside manager).calls ++ rest) ∧
      turnsLeft ((call.turn outside manager).calls ++ rest) < turnsLeft (call :: rest) := by
  obtain ⟨id, point, rfl⟩ := h.stops call List.mem_cons_self
  have hstops : Stops manager id point (Call.turn outside manager (.stop id point)) :=
    stops_stopTurn outside manager id point
  generalize Call.turn outside manager (.stop id point) = progress at hstops
  refine ⟨⟨?_, ?_⟩, ?_⟩
  · intro call hcall
    rcases List.mem_append.mp hcall with hnew | hold
    · obtain ⟨next, rfl⟩ := hstops.calls call hnew
      exact ⟨id, next, rfl⟩
    · exact h.stops call (List.mem_cons_of_mem _ hold)
  · intro other hother
    obtain ⟨hrunning, hpoint⟩ := hstops.running other hother
    rcases h.running other hrunning with hmem | hmem
    · rcases List.mem_cons.mp hmem with heq | hmem
      · cases heq
        right
        rw [hstops.stopping rfl]
        exact List.mem_cons_self
      · exact Or.inl (List.mem_append_right _ hmem)
    · rcases List.mem_cons.mp hmem with heq | hmem
      · cases heq
        exact absurd rfl (hpoint rfl)
      · exact Or.inr (List.mem_append_right _ hmem)
  · rw [turnsLeft_append]
    change _ < (List.map Call.turnsLeft (_ :: rest)).sum
    rw [List.map_cons, List.sum_cons]
    exact Nat.add_lt_add_right hstops.fewer _

/-- After enough turns the stops are through, and no mount is running. -/
theorem StopsRunning.alone {outsides : List Outside} {manager : MountManager} {task : MountTask}
    (h : StopsRunning manager task.calls) (hlength : turnsLeft task.calls ≤ outsides.length) :
    (task.alone outsides manager).2.calls = [] ∧
      ∀ id, (task.alone outsides manager).1.running id = false := by
  have hend := @MountTask.alone_ends StopsRunning (fun _ => True) turnsLeft rfl turnsLeft_pos
    (fun manager call rest outside _ h => h.turn outside) outsides (fun _ _ => trivial)
    manager task h hlength
  refine ⟨hend.1, fun id => ?_⟩
  by_contra hrunning
  have hmem := hend.2.running id (by simpa using hrunning)
  simp at hmem

/-- The stops of `stop_all` are for the live mounts. -/
theorem mem_liveIds {outside : Outside} {manager : MountManager} {id : Uuid} :
    id ∈ manager.liveIds outside ↔ (manager.mounts.get? id).isSome := by
  have hids : id ∈ manager.mounts.toList.map Prod.fst ↔ (manager.mounts.get? id).isSome := by
    rw [Option.isSome_iff_exists, List.mem_map]
    constructor
    · intro h
      obtain ⟨entry, hentry, rfl⟩ := h
      exact ⟨entry.2, FinMap.get?_eq_some_iff.mpr hentry⟩
    · intro h
      obtain ⟨live, hlive⟩ := h
      exact ⟨(id, live), FinMap.get?_eq_some_iff.mp hlive, rfl⟩
  unfold liveIds
  dsimp only
  split_ifs with hperm
  · rw [hperm.mem_iff, hids]
  · exact hids

theorem length_liveIds (outside : Outside) (manager : MountManager) :
    (manager.liveIds outside).length = manager.mounts.toList.length := by
  unfold liveIds
  dsimp only
  split_ifs with hperm
  · rw [hperm.length_eq, List.length_map]
  · rw [List.length_map]

theorem stopsRunning_stopAll (outside : Outside) (manager : MountManager) :
    StopsRunning manager (Call.turn outside manager .stopAll).calls ∧
      turnsLeft (Call.turn outside manager .stopAll).calls =
        4 * manager.mounts.toList.length := by
  have hlength := length_liveIds outside manager
  unfold Call.turn
  refine ⟨⟨?_, ?_⟩, ?_⟩
  · intro call hcall
    obtain ⟨id, -, rfl⟩ := List.mem_map.mp hcall
    exact ⟨id, .stopping, rfl⟩
  · intro id hrunning
    left
    refine List.mem_map.mpr ⟨id, mem_liveIds.mpr ?_, rfl⟩
    unfold running at hrunning
    cases hget : manager.mounts.get? id with
    | none =>
        rw [hget] at hrunning
        contradiction
    | some live => rfl
  · unfold turnsLeft
    rw [List.map_map, ← hlength]
    generalize manager.liveIds outside = ids
    induction ids with
    | nil => rfl
    | cons id rest ih =>
        rw [List.map_cons, List.sum_cons, ih, List.length_cons]
        change 4 + _ = _
        omega

end MountManager

/-- When no other request is under way, `stop_all` comes to its end and leaves no session
behind, whatever errors it meets. -/
theorem MountDaemon.stop_all_ends_every_session (table : FuseMounts) (actions : List Action)
    (outside : Outside) (outsides : List Outside)
    (hrest : ∀ task ∈ ((boot table).run actions).tasks, task.calls = [])
    (hlength : 4 * ((boot table).run actions).shared.mounts.toList.length ≤ outsides.length) :
    let daemon := (boot table).run actions
    let stopped := (daemon.step (.request .stopAll)).run
      ((outside :: outsides).map (.turn daemon.tasks.length))
    (∀ task ∈ stopped.tasks, task.calls = []) ∧ (∀ id, stopped.shared.running id = false) ∧
      ∀ session, ¬ stopped.shared.Alive session := by
  have haccounted := (accounted_boot table).run actions
  generalize (boot table).run actions = daemon at hrest hlength haccounted
  have hrun := (haccounted.step (.request .stopAll)).run
    ((outside :: outsides).map (.turn daemon.tasks.length))
  dsimp only
  have halone : (daemon.step (.request .stopAll)).run
      ((outside :: outsides).map (.turn daemon.tasks.length)) = _ :=
    MountDaemon.run_alone daemon.shared daemon.tasks ⟨[.stopAll], []⟩ (outside :: outsides)
  obtain ⟨hstops, hturns⟩ := stopsRunning_stopAll outside daemon.shared
  have hend := @StopsRunning.alone outsides daemon.shared
    ⟨(Call.turn outside daemon.shared .stopAll).calls ++ [], []⟩
    (by rw [List.append_nil]; exact hstops) (by rw [List.append_nil, hturns]; exact hlength)
  rw [halone] at hrun ⊢
  change (MountTask.alone (outside :: outsides) daemon.shared ⟨[.stopAll], []⟩).2.calls = [] ∧
    (∀ id, (MountTask.alone (outside :: outsides) daemon.shared ⟨[.stopAll], []⟩).1.running id =
      false) at hend
  generalize MountTask.alone (outside :: outsides) daemon.shared ⟨[.stopAll], []⟩ = now at *
  have hall : ∀ task ∈ daemon.tasks ++ [now.2], task.calls = [] := by
    intro task htask
    rcases List.mem_append.mp htask with hold | hnew
    · exact hrest task hold
    · rw [List.mem_singleton.mp hnew]
      exact hend.1
  refine ⟨hall, hend.2, fun session halive => ?_⟩
  obtain ⟨id, hid⟩ := hrun.owner_of_rest hall halive
  have hnone := heldBy_eq_none_iff.mpr (hend.2 id)
  dsimp only at hid hnone
  rw [hnone] at hid
  contradiction

/-! ## Starting all mounts -/

namespace MountManager

/-- The mount is running and its row says so, or its row has an error. -/
def AccountedFor (manager : MountManager) (id : Uuid) : Prop :=
  ∃ row, manager.table.get id = some row ∧
    ((row.status = .running ∧ manager.running id = true) ∨
      (row.status = .error ∧ row.errorMessage.isSome = true))

/-- The mount that a call of the loop of `start_auto` is for. -/
def Call.autoId? : Call → Option Uuid
  | .start id true _ => some id
  | .setError id _ => some id
  | _ => none

theorem get_setStatus (manager : MountManager) (id other : Uuid) (status : MountStatus)
    (errorMessage : Option String) :
    (manager.setStatus id status errorMessage).table.get other =
      (manager.table.get other).map (fun row =>
        if other = id then { row with status := status, errorMessage := errorMessage }
        else row) :=
  FuseMounts.get_updateStatus

theorem get_setStatus_of_ne (manager : MountManager) {id other : Uuid} (h : other ≠ id)
    (status : MountStatus) (errorMessage : Option String) :
    (manager.setStatus id status errorMessage).table.get other = manager.table.get other := by
  rw [get_setStatus]
  simp [h]

theorem running_store (manager : MountManager) (id other : Uuid) (live : LiveHandle) :
    (manager.store id live).running other =
      if id = other then live.session.isSome else manager.running other := by
  unfold running store
  dsimp only
  rw [FinMap.get?_put]
  split_ifs <;> rfl

/-- What a turn of a call for one mount does in the loop: the other mounts stay as they are,
and the call ends with its mount accounted for or goes on. -/
structure StartsOne (manager : MountManager) (id : Uuid) (call : Call) (progress : Progress) :
    Prop where
  others : ∀ other, other ≠ id →
    progress.manager.table.get other = manager.table.get other ∧
      progress.manager.running other = manager.running other
  row : (progress.manager.table.get id).isSome = (manager.table.get id).isSome
  next : (progress.calls = [] ∧ progress.manager.AccountedFor id) ∨
    ∃ next, progress.calls = [next] ∧ next.autoId? = some id ∧
      next.turnsLeft < call.turnsLeft ∧
      ∀ config, next = .start id true (.running config) → progress.manager.running id = true

section

variable {outside : Outside} {manager manager' : MountManager} {id : Uuid} {call next : Call}

theorem StartsOne.goOn (hothers : ∀ other, other ≠ id →
      manager'.table.get other = manager.table.get other ∧
        manager'.running other = manager.running other)
    (hrow : (manager'.table.get id).isSome = (manager.table.get id).isSome)
    (hid : next.autoId? = some id) (hfewer : next.turnsLeft < call.turnsLeft)
    (hrunning : ∀ config, next = .start id true (.running config) → manager'.running id = true) :
    StartsOne manager id call (.goOn manager' next) :=
  ⟨hothers, hrow, Or.inr ⟨next, rfl, hid, hfewer, hrunning⟩⟩

theorem StartsOne.failed (hcall : 1 < call.turnsLeft) (error : MountManagerError) :
    StartsOne manager id call (manager.startFailed id true error) :=
  ⟨fun _ _ => ⟨rfl, rfl⟩, rfl, Or.inr ⟨.setError id error, rfl, rfl, hcall, by simp⟩⟩

theorem startsOne_startTurn {point : StartPoint} (hquery : outside.query = none)
    (hrow : (manager.table.get id).isSome = true)
    (hrunning : ∀ config, point = .running config → manager.running id = true) :
    StartsOne manager id (.start id true point) (startTurn outside manager id true point) := by
  have hmore : 1 < (Call.start id true point).turnsLeft := by
    cases point <;> simp [Call.turnsLeft, StartPoint.turnsLeft]
  cases point with
  | get =>
      unfold startTurn query
      rw [hquery]
      dsimp only
      split
      · exact .failed hmore _
      · exact .goOn (fun _ _ => ⟨rfl, rfl⟩) rfl rfl
          (by simp [Call.turnsLeft, StartPoint.turnsLeft]) (by simp)
  | check config =>
      unfold startTurn
      dsimp only
      split_ifs
      · exact .failed hmore _
      · exact .goOn (fun _ _ => ⟨rfl, rfl⟩) rfl rfl
          (by simp [Call.turnsLeft, StartPoint.turnsLeft]) (by simp)
  | starting config =>
      unfold startTurn query
      rw [hquery]
      refine .goOn (fun other hother => ⟨get_setStatus_of_ne manager hother _ _, rfl⟩) ?_ rfl
        (by simp [Call.turnsLeft, StartPoint.turnsLeft]) (by simp)
      rw [get_setStatus, Option.isSome_map]
  | load config =>
      unfold startTurn
      cases outside.load with
      | some error => exact .failed hmore _
      | none =>
          cases outside.spawn with
          | some error => exact .failed hmore _
          | none =>
              exact .goOn (fun _ _ => ⟨rfl, rfl⟩) rfl rfl
                (by simp [Call.turnsLeft, StartPoint.turnsLeft]) (by simp)
  | insert config session =>
      refine .goOn (fun other hother => ⟨rfl, ?_⟩) rfl rfl
        (by simp [Call.turnsLeft, StartPoint.turnsLeft]) (fun _ _ => ?_)
      · rw [running_store, if_neg (Ne.symm hother)]
      · rw [running_store, if_pos rfl]
        rfl
  | running config =>
      unfold startTurn query
      rw [hquery]
      refine ⟨fun other hother => ⟨get_setStatus_of_ne manager hother _ _, rfl⟩, ?_,
        Or.inl ⟨rfl, ?_⟩⟩
      · change ((manager.setStatus id .running none).table.get id).isSome = _
        rw [get_setStatus, Option.isSome_map]
      · obtain ⟨row, hget⟩ := Option.isSome_iff_exists.mp hrow
        refine ⟨{ row with status := .running, errorMessage := none }, ?_,
          Or.inl ⟨rfl, hrunning config rfl⟩⟩
        change (manager.setStatus id .running none).table.get id = _
        rw [get_setStatus, hget]
        simp

theorem startsOne_setError {error : MountManagerError} (hquery : outside.query = none)
    (hrow : (manager.table.get id).isSome = true) :
    StartsOne manager id (.setError id error) (Call.turn outside manager (.setError id error)) := by
  unfold Call.turn query
  rw [hquery]
  refine ⟨fun other hother => ⟨get_setStatus_of_ne manager hother _ _, rfl⟩, ?_, Or.inl ⟨rfl, ?_⟩⟩
  · dsimp only
    rw [get_setStatus, Option.isSome_map]
  · obtain ⟨row, hget⟩ := Option.isSome_iff_exists.mp hrow
    refine ⟨{ row with status := .error, errorMessage := some error.display }, ?_,
      Or.inr ⟨rfl, rfl⟩⟩
    dsimp only
    rw [get_setStatus, hget]
    simp

end

/-- The loop of `start_auto`: every mount of the list has a row, and either a call ahead of it
or is accounted for. -/
structure StartsLeft (ids : List Uuid) (manager : MountManager) (calls : List Call) : Prop where
  auto : ∀ call ∈ calls, ∃ id ∈ ids, call.autoId? = some id
  nodup : (calls.map Call.autoId?).Nodup
  rows : ∀ id ∈ ids, (manager.table.get id).isSome = true
  waiting : ∀ call ∈ calls.tail, ∃ id, call = .start id true .get
  stored : ∀ id config, calls.head? = some (.start id true (.running config)) →
    manager.running id = true
  accounted : ∀ id ∈ ids, some id ∈ calls.map Call.autoId? ∨ manager.AccountedFor id

theorem StartsLeft.startsOne {ids : List Uuid} {manager : MountManager} {call : Call}
    {rest : List Call} (h : StartsLeft ids manager (call :: rest)) {outside : Outside}
    (hquery : outside.query = none) :
    ∃ id ∈ ids, call.autoId? = some id ∧ StartsOne manager id call (call.turn outside manager) := by
  obtain ⟨id, hid, hcall⟩ := h.auto call List.mem_cons_self
  refine ⟨id, hid, hcall, ?_⟩
  cases call with
  | start other auto point =>
      cases auto with
      | false => contradiction
      | true =>
          cases hcall
          exact startsOne_startTurn hquery (h.rows id hid)
            (fun config hpoint => h.stored id config (by rw [hpoint]; rfl))
  | setError other error =>
      cases hcall
      exact startsOne_setError hquery (h.rows id hid)
  | _ => contradiction

theorem StartsLeft.turn {ids : List Uuid} {manager : MountManager} {call : Call}
    {rest : List Call} (h : StartsLeft ids manager (call :: rest)) {outside : Outside}
    (hquery : outside.query = none) :
    StartsLeft ids (call.turn outside manager).manager
        ((call.turn outside manager).calls ++ rest) ∧
      turnsLeft ((call.turn outside manager).calls ++ rest) < turnsLeft (call :: rest) := by
  obtain ⟨id, hid, hcall, hone⟩ := h.startsOne hquery
  generalize call.turn outside manager = progress at hone
  have hnodup := h.nodup
  rw [List.map_cons, List.nodup_cons, hcall] at hnodup
  have hrest : ∀ other, some other ∈ rest.map Call.autoId? → other ≠ id := by
    intro other hother heq
    rw [heq] at hother
    exact hnodup.1 hother
  have hrows : ∀ other ∈ ids, (progress.manager.table.get other).isSome = true := by
    intro other hother
    by_cases heq : other = id
    · rw [heq, hone.row]
      exact h.rows id hid
    · rw [(hone.others other heq).1]
      exact h.rows other hother
  have hwaiting : ∀ call ∈ rest, ∃ id, call = .start id true .get := h.waiting
  have haccounted : ∀ other ∈ ids, other ≠ id →
      some other ∈ rest.map Call.autoId? ∨ progress.manager.AccountedFor other := by
    intro other hother hne
    rcases h.accounted other hother with hmem | hacc
    · rw [List.map_cons, hcall, List.mem_cons] at hmem
      rcases hmem with heq | hmem
      · exact absurd (Option.some.inj heq) hne
      · exact Or.inl hmem
    · right
      obtain ⟨row, hget, hrow⟩ := hacc
      refine ⟨row, (hone.others other hne).1.trans hget, ?_⟩
      rw [(hone.others other hne).2]
      exact hrow
  rcases hone.next with ⟨hnil, hacc⟩ | ⟨next, hnext, hnextId, hfewer, hrunning⟩
  · -- the call has ended
    rw [hnil, List.nil_append]
    refine ⟨⟨fun call hmem => h.auto call (List.mem_cons_of_mem _ hmem), hnodup.2, hrows,
      fun call hmem => hwaiting call (List.mem_of_mem_tail hmem), ?_, ?_⟩, ?_⟩
    · intro other config hhead
      obtain ⟨other', hother'⟩ := hwaiting _ (List.mem_of_mem_head? hhead)
      cases hother'
    · intro other hother
      by_cases heq : other = id
      · exact Or.inr (heq ▸ hacc)
      · exact haccounted other hother heq
    · have hpos := turnsLeft_pos call []
      unfold turnsLeft at hpos ⊢
      rw [List.map_cons, List.sum_cons] at hpos ⊢
      simp only [List.map_nil, List.sum_nil] at hpos
      omega
  · rw [hnext, List.singleton_append]
    refine ⟨⟨?_, ?_, hrows, hwaiting, ?_, ?_⟩, ?_⟩
    · intro other hother
      rcases List.mem_cons.mp hother with rfl | hother
      · exact ⟨id, hid, hnextId⟩
      · exact h.auto other (List.mem_cons_of_mem _ hother)
    · rw [List.map_cons, List.nodup_cons, hnextId]
      exact hnodup
    · intro other config hhead
      cases hhead
      cases hnextId
      exact hrunning config rfl
    · intro other hother
      rw [List.map_cons, hnextId, List.mem_cons]
      by_cases heq : other = id
      · exact Or.inl (Or.inl (congrArg some heq))
      · rcases haccounted other hother heq with hmem | hacc
        · exact Or.inl (Or.inr hmem)
        · exact Or.inr hacc
    · unfold turnsLeft
      rw [List.map_cons, List.map_cons, List.sum_cons, List.sum_cons]
      exact Nat.add_lt_add_right hfewer _

theorem nodup_autoList (table : FuseMounts) :
    (table.autoList.map FuseMountRow.mountId).Nodup := by
  have hperm := List.perm_insertionSort (fun row row' : FuseMountRow =>
    row.createdAt ≤ row'.createdAt) (table.rows.filter (fun row => row.autoMount && row.enabled))
  rw [FuseMounts.autoList, (hperm.map _).nodup_iff]
  exact FuseMounts.nodup_erase table.ids _

theorem startsLeft_startAuto (manager : MountManager) {outside : Outside}
    (hquery : outside.query = none) :
    Call.turn outside manager .startAuto =
        ⟨manager, manager.table.autoList.map (fun row => .start row.mountId true .get), []⟩ ∧
      StartsLeft (manager.table.autoList.map FuseMountRow.mountId) manager
        (manager.table.autoList.map (fun row => .start row.mountId true .get)) ∧
      turnsLeft (manager.table.autoList.map (fun row => .start row.mountId true .get)) =
        7 * manager.table.autoList.length := by
  have hnodup := nodup_autoList manager.table
  have hrows : ∀ row ∈ manager.table.autoList,
      (manager.table.get row.mountId).isSome = true := by
    intro row hrow
    have hmem := (FuseMounts.mem_autoList.mp hrow).1
    rw [FuseMounts.get_eq_some_iff.mpr ⟨hmem, rfl⟩]
    rfl
  refine ⟨?_, ?_, ?_⟩
  · unfold Call.turn query
    rw [hquery]
  · generalize manager.table.autoList = rows at hnodup hrows
    have hids : (rows.map (fun row => Call.start row.mountId true .get)).map Call.autoId? =
        (rows.map FuseMountRow.mountId).map some := by
      rw [List.map_map, List.map_map]
      rfl
    constructor
    · intro call hcall
      obtain ⟨row, hrow, rfl⟩ := List.mem_map.mp hcall
      exact ⟨row.mountId, List.mem_map_of_mem hrow, rfl⟩
    · rw [hids]
      exact hnodup.map (Option.some_injective _)
    · intro id hid
      obtain ⟨row, hrow, rfl⟩ := List.mem_map.mp hid
      exact hrows row hrow
    · intro call hcall
      obtain ⟨row, -, rfl⟩ := List.mem_map.mp (List.mem_of_mem_tail hcall)
      exact ⟨row.mountId, rfl⟩
    · intro id config hhead
      obtain ⟨row, -, heq⟩ := List.mem_map.mp (List.mem_of_mem_head? hhead)
      cases heq
    · intro id hid
      rw [hids]
      exact Or.inl (List.mem_map_of_mem hid)
  · generalize manager.table.autoList = rows
    unfold turnsLeft
    induction rows with
    | nil => rfl
    | cons row rest ih =>
        rw [List.map_cons, List.map_cons, List.sum_cons, ih, List.length_cons]
        change 7 + _ = _
        omega

end MountManager

/-- When no other request has a turn and no query fails, `start_auto` comes to its end, and
every mount of its list is running then, or has the error of its start in its row. -/
theorem MountDaemon.start_auto_accounts_for_every_mount (table : FuseMounts)
    (actions : List Action) (outside : Outside) (outsides : List Outside)
    (hquery : ∀ outside' ∈ outside :: outsides, outside'.query = none)
    (hlength :
      7 * ((boot table).run actions).shared.table.autoList.length ≤ outsides.length) :
    let daemon := (boot table).run actions
    let started := (daemon.step (.request .startAuto)).run
      ((outside :: outsides).map (.turn daemon.tasks.length))
    (∃ results, started.tasks = daemon.tasks ++ [⟨[], results⟩]) ∧
      ∀ row ∈ daemon.shared.table.autoList, ∃ row',
        started.shared.table.get row.mountId = some row' ∧
          ((row'.status = .running ∧ started.shared.running row.mountId = true) ∨
            (row'.status = .error ∧ row'.errorMessage.isSome = true)) := by
  generalize (boot table).run actions = daemon at hlength
  dsimp only
  have halone : (daemon.step (.request .startAuto)).run
      ((outside :: outsides).map (.turn daemon.tasks.length)) = _ :=
    MountDaemon.run_alone daemon.shared daemon.tasks ⟨[.startAuto], []⟩ (outside :: outsides)
  obtain ⟨hfirst, hstarts, hturns⟩ :=
    startsLeft_startAuto daemon.shared (hquery outside List.mem_cons_self)
  have hend := @MountTask.alone_ends
    (StartsLeft (daemon.shared.table.autoList.map FuseMountRow.mountId))
    (fun outside => outside.query = none) turnsLeft rfl turnsLeft_pos
    (fun manager call rest outside hquery h => h.turn hquery) outsides
    (fun outside houtside => hquery outside (List.mem_cons_of_mem _ houtside)) daemon.shared
    ⟨daemon.shared.table.autoList.map (fun row => .start row.mountId true .get), []⟩ hstarts
    (by rw [hturns]; exact hlength)
  have hturn : MountTask.alone (outside :: outsides) daemon.shared ⟨[.startAuto], []⟩ =
      MountTask.alone outsides daemon.shared
        ⟨daemon.shared.table.autoList.map (fun row => .start row.mountId true .get), []⟩ := by
    unfold MountTask.alone MountTask.turn
    rw [List.foldl_cons]
    dsimp only
    rw [hfirst, List.append_nil, List.append_nil]
  rw [halone, hturn]
  generalize MountTask.alone outsides daemon.shared _ = now at hend
  refine ⟨⟨now.2.results, ?_⟩, fun row hrow => ?_⟩
  · rw [← hend.1]
  · rcases hend.2.accounted row.mountId (List.mem_map_of_mem hrow) with hmem | hacc
    · exact absurd hmem List.not_mem_nil
    · exact hacc

namespace Reference

def mountRow : FuseMountRow :=
  ⟨⟨1⟩, ⟨7⟩, "/mnt/a".toList, true, true, false, 100, 60, .stopped, none, 0⟩

theorem nodup_mountRow {κ : Type} (column : FuseMountRow → κ) :
    ([mountRow].map column).Nodup := by
  simp

def oneMount : FuseMounts := ⟨[mountRow], nodup_mountRow _, nodup_mountRow _⟩

/-- A turn in which nothing fails. -/
def goesWell : Outside := ⟨none, true, .directory, ⟨2⟩, 0, none, none, none, []⟩

/-- The mount is started. -/
def startsMount : List MountDaemon.Action :=
  .request (.start ⟨1⟩) :: List.replicate 6 (.turn 0 goesWell)

theorem startsMount_ended : ∀ task ∈ ((MountDaemon.boot oneMount).run startsMount).tasks,
    task.calls = [] := by
  have hall : ((MountDaemon.boot oneMount).run startsMount).tasks.all
      (fun task => task.calls.isEmpty) = true := by
    decide +kernel
  intro task htask
  simpa using List.all_eq_true.mp hall task htask

theorem startsMount_stopped :
    let daemon := (MountDaemon.boot oneMount).run startsMount
    let stopped := (daemon.step (.request .stopAll)).run
      ((goesWell :: List.replicate 4 goesWell).map (.turn daemon.tasks.length))
    (∀ task ∈ stopped.tasks, task.calls = []) ∧ (∀ id, stopped.shared.running id = false) ∧
      ∀ session, ¬ stopped.shared.Alive session :=
  MountDaemon.stop_all_ends_every_session oneMount startsMount goesWell
    (List.replicate 4 goesWell) startsMount_ended (by decide +kernel)

theorem oneMount_accounted :
    let daemon := (MountDaemon.boot oneMount).run []
    let started := (daemon.step (.request .startAuto)).run
      ((goesWell :: List.replicate 7 goesWell).map (.turn daemon.tasks.length))
    (∃ results, started.tasks = daemon.tasks ++ [⟨[], results⟩]) ∧
      ∀ row ∈ daemon.shared.table.autoList, ∃ row',
        started.shared.table.get row.mountId = some row' ∧
          ((row'.status = .running ∧ started.shared.running row.mountId = true) ∨
            (row'.status = .error ∧ row'.errorMessage.isSome = true)) :=
  MountDaemon.start_auto_accounts_for_every_mount oneMount [] goesWell
    (List.replicate 7 goesWell)
    (fun _ houtside => congrArg Outside.query (List.eq_of_mem_replicate
      (n := 8) houtside)) (by decide +kernel)

end Reference

end JaxFs

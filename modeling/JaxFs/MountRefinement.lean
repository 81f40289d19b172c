import JaxFs.DaemonSync
import JaxFs.MountStages

/-!
# Requests that run alone are atomic

In the daemon with its filesystems a start, a stop and a delete are one step each.  A request
that has all the turns until it has ended does the same to the live mounts.
-/

namespace JaxFs

open BucketLogProvider MountManager

/-- What both know of a live mount: whether it has a session, and what it is configured as. -/
def LiveSession.view (live : LiveSession) : Bool × FuseMount := (live.session.isSome, live.config)

def FuseMountRow.config (row : FuseMountRow) : FuseMount := ⟨row.bucketId, row.readOnly⟩

def LiveHandle.view (live : LiveHandle) : Bool × FuseMount :=
  (live.session.isSome, live.config.config)

section

variable [P : Primitives] {σ : Type}

/-- The daemon and the manager have the same live mounts. -/
def SameMounts (daemon : Daemon σ) (manager : MountManager) : Prop :=
  ∀ id, (daemon.mounts.get? id).map LiveSession.view =
    (manager.mounts.get? id).map LiveHandle.view

theorem SameMounts.running {daemon : Daemon σ} {manager : MountManager}
    (h : SameMounts daemon manager) (id : Uuid) :
    (daemon.mounts.get? id).any (fun live => live.session.isSome) = manager.running id := by
  have hid := h id
  unfold MountManager.running
  cases hdaemon : daemon.mounts.get? id <;> cases hmanager : manager.mounts.get? id <;>
    rw [hdaemon, hmanager] at hid
  · rfl
  · cases hid
  · cases hid
  · exact congrArg Prod.fst (Option.some.inj hid)

/-- Putting mounts that look the same. -/
theorem SameMounts.put {daemon daemon' : Daemon σ} {manager manager' : MountManager}
    (h : SameMounts daemon manager) {id : Uuid} {live : LiveSession} {live' : LiveHandle}
    (hdaemon : daemon'.mounts = daemon.mounts.put id live)
    (hmanager : manager'.mounts = manager.mounts.put id live') (hview : live.view = live'.view) :
    SameMounts daemon' manager' := by
  intro other
  rw [hdaemon, hmanager, FinMap.get?_put, FinMap.get?_put]
  split_ifs
  · exact congrArg some hview
  · exact h other

theorem SameMounts.of_mounts {daemon daemon' : Daemon σ} {manager manager' : MountManager}
    (h : SameMounts daemon manager) (hdaemon : daemon'.mounts = daemon.mounts)
    (hmanager : manager'.mounts = manager.mounts) : SameMounts daemon' manager' := by
  intro id
  rw [hdaemon, hmanager]
  exact h id

end

/-! ## The manager after a request that runs alone -/

section

variable {manager : MountManager} {outside : Outside} {id : Uuid}

theorem alone_of_ended (outsides : List Outside)
    (results : List (Except MountManagerError Answer)) :
    MountTask.alone outsides manager ⟨[], results⟩ = (manager, ⟨[], results⟩) := by
  induction outsides with
  | nil => rfl
  | cons outside rest ih => exact ih

theorem ended_alone (outsides : List Outside)
    (results : List (Except MountManagerError Answer)) :
    let after := MountTask.alone outsides manager ⟨[], results⟩
    after.2.calls = [] ∧ after.1.mounts = manager.mounts := by
  rw [alone_of_ended]
  exact ⟨rfl, rfl⟩

theorem alone_cons (outsides : List Outside) (call : Call) (rest : List Call)
    (results : List (Except MountManagerError Answer)) :
    MountTask.alone (outside :: outsides) manager ⟨call :: rest, results⟩ =
      MountTask.alone outsides (call.turn outside manager).manager
        ⟨(call.turn outside manager).calls ++ rest,
          results ++ (call.turn outside manager).results⟩ :=
  rfl

/-- A start that succeeds stores a live mount; one that fails leaves the live mounts. -/
theorem start_alone (hquery : outside.query = none) :
    let after := MountTask.alone (List.replicate 6 outside) manager ⟨[.start id false .get], []⟩
    after.2.calls = [] ∧ after.1.mounts = (match manager.table.get id with
      | none => manager.mounts
      | some config =>
          if manager.running id || outside.load.isSome || outside.spawn.isSome then manager.mounts
          else manager.mounts.put id ⟨some manager.spawned, config⟩) := by
  simp only [List.replicate_succ, List.replicate_zero, alone_cons]
  cases hget : manager.table.get id with
  | none => simp [Call.turn, startTurn, query, hquery, hget, startFailed, alone_of_ended]
  | some config =>
      cases hrunning : manager.running id with
      | true =>
          simp [alone_cons, Call.turn, startTurn, query, hquery, hget, startFailed, alone_of_ended,
            Progress.goOn, hrunning]
      | false =>
          cases hload : outside.load with
          | some error =>
              simp [alone_cons, Call.turn, startTurn, query, hquery, hget, startFailed,
                alone_of_ended, Progress.goOn, hrunning, hload, setStatus]
          | none =>
              cases hspawn : outside.spawn with
              | some error =>
                  simp [alone_cons, Call.turn, startTurn, query, hquery, hget, startFailed,
                    alone_of_ended, Progress.goOn, hrunning, hload, hspawn, setStatus]
              | none =>
                  simp [alone_cons, Call.turn, startTurn, query, hquery, hget, alone_of_ended,
                    Progress.goOn, Progress.finish, hrunning, hload, hspawn, setStatus,
                    MountManager.spawn, store]

theorem mounts_takeSession_congr {manager' : MountManager}
    (h : manager'.mounts = manager.mounts) :
    (manager'.takeSession id).mounts = (manager.takeSession id).mounts := by
  unfold takeSession store
  rw [h]
  cases manager.mounts.get? id with
  | none => exact h
  | some live => rfl

/-- From its second turn on a stop keeps the live mounts. -/
theorem stop_unmount_alone {mountPoint : Name}
    (results : List (Except MountManagerError Answer)) :
    let after := MountTask.alone (List.replicate 2 outside) manager
      ⟨[.stop id (.unmount mountPoint)], results⟩
    after.2.calls = [] ∧ after.1.mounts = manager.mounts := by
  simp only [List.replicate_succ, List.replicate_zero, alone_cons]
  cases hunmount : outside.unmount with
  | some error => simp [Call.turn, stopTurn, hunmount, alone_of_ended, Progress.finish]
  | none =>
      cases hquery : outside.query with
      | none =>
          simp [alone_cons, Call.turn, stopTurn, hunmount, query, hquery, alone_of_ended,
            Progress.goOn, Progress.finish, setStatus]
      | some message =>
          simp [alone_cons, Call.turn, stopTurn, hunmount, query, hquery, alone_of_ended,
            Progress.goOn, Progress.finish]

theorem stop_take_alone (results : List (Except MountManagerError Answer)) :
    let after := MountTask.alone (List.replicate 3 outside) manager ⟨[.stop id .take], results⟩
    after.2.calls = [] ∧ after.1.mounts = (manager.takeSession id).mounts := by
  rw [List.replicate_succ, alone_cons]
  unfold Call.turn stopTurn
  dsimp only
  cases hget : manager.mounts.get? id with
  | some live => exact stop_unmount_alone _
  | none =>
      have htake : manager.takeSession id = manager := by
        unfold takeSession
        rw [hget]
      rw [htake]
      unfold query
      cases outside.query with
      | some message => exact ended_alone _ _
      | none =>
          dsimp only
          cases manager.table.get id with
          | some config => exact stop_unmount_alone _
          | none => exact ended_alone _ _

/-- A stop takes the session, whatever fails. -/
theorem stop_alone :
    let after := MountTask.alone (List.replicate 4 outside) manager ⟨[.stop id .stopping], []⟩
    after.2.calls = [] ∧ after.1.mounts = (manager.takeSession id).mounts := by
  rw [List.replicate_succ, alone_cons]
  unfold Call.turn stopTurn query
  cases outside.query with
  | none =>
      have hsame : ((manager.setStatus id .stopping none).takeSession id).mounts =
          (manager.takeSession id).mounts := mounts_takeSession_congr rfl
      obtain ⟨hcalls, hmounts⟩ :=
        @stop_take_alone (manager.setStatus id .stopping none) outside id []
      exact ⟨hcalls, hmounts.trans hsame⟩
  | some message => exact stop_take_alone _

/-- What is left of a `delete`, with the live mounts that it has come to. -/
structure Deletes (id : Uuid) (before manager : MountManager) (calls : List Call) : Prop where
  left : (∃ stops, (∀ call ∈ stops, ∃ point, call = .stop id point) ∧
      calls = stops ++ [.remove id, .deleteRow id]) ∨
    ((calls = [.deleteRow id] ∨ calls = []) ∧ manager.mounts.get? id = none)
  others : ∀ other, other ≠ id → manager.mounts.get? other = before.mounts.get? other

theorem Deletes.turn {before : MountManager} {call : Call} {rest : List Call}
    (h : Deletes id before manager (call :: rest)) (outside : Outside) :
    Deletes id before (call.turn outside manager).manager
        ((call.turn outside manager).calls ++ rest) ∧
      turnsLeft ((call.turn outside manager).calls ++ rest) < turnsLeft (call :: rest) := by
  have hothers : call.subject? = some id → ∀ other, other ≠ id →
      (call.turn outside manager).manager.mounts.get? other = before.mounts.get? other := by
    intro hsubject other hother
    have hne : call.subject? ≠ some other := by
      rw [hsubject]
      exact fun heq => hother (Option.some.inj heq).symm
    rw [(undisturbed_turn hne).mounts]
    exact h.others other hother
  rcases h.left with ⟨stops, hstops, heq⟩ | ⟨heq | heq, hnone⟩
  · cases stops with
    | nil =>
        cases heq
        refine ⟨⟨Or.inr ⟨Or.inl rfl, ?_⟩, hothers rfl⟩,
          by simp [Call.turn, turnsLeft, Call.turnsLeft]⟩
        unfold Call.turn MountManager.remove
        dsimp only
        rw [FinMap.get?_erase, if_pos rfl]
    | cons first stops =>
        obtain ⟨rfl, rfl⟩ := List.cons.inj heq
        obtain ⟨point, rfl⟩ := hstops call List.mem_cons_self
        have hturn : Stops manager id point (Call.turn outside manager (.stop id point)) :=
          stops_stopTurn outside manager id point
        refine ⟨⟨Or.inl ⟨(Call.turn outside manager (.stop id point)).calls ++ stops, ?_, ?_⟩,
          hothers rfl⟩, ?_⟩
        · intro call hcall
          rcases List.mem_append.mp hcall with hnew | hold
          · exact hturn.calls call hnew
          · exact hstops call (List.mem_cons_of_mem _ hold)
        · rw [List.append_assoc]
          rfl
        · rw [turnsLeft_append]
          exact Nat.add_lt_add_right hturn.fewer _
  · cases heq
    have hkept : (Call.turn outside manager (.deleteRow id)).calls = [] ∧
        (Call.turn outside manager (.deleteRow id)).manager.mounts = manager.mounts := by
      unfold Call.turn query
      cases outside.query <;> exact ⟨rfl, rfl⟩
    rw [hkept.1]
    refine ⟨⟨Or.inr ⟨Or.inr rfl, ?_⟩, hothers rfl⟩, turnsLeft_pos _ _⟩
    rw [hkept.2]
    exact hnone
  · cases heq

/-- A delete takes the mount from the live ones, whatever fails. -/
theorem delete_alone :
    let after := MountTask.alone (List.replicate 6 outside) manager
      ⟨[.stop id .stopping, .remove id, .deleteRow id], []⟩
    after.2.calls = [] ∧ ∀ other, after.1.mounts.get? other =
      if id = other then none else manager.mounts.get? other := by
  have hstart : Deletes id manager manager [.stop id .stopping, .remove id, .deleteRow id] :=
    ⟨Or.inl ⟨[.stop id .stopping], by simp, rfl⟩, fun _ _ => rfl⟩
  have hend := @MountTask.alone_ends (Deletes id manager) (fun _ => True) turnsLeft rfl
    turnsLeft_pos (fun manager call rest outside _ h => h.turn outside)
    (List.replicate 6 outside) (fun _ _ => trivial) manager ⟨_, []⟩ hstart
    (by simp [turnsLeft, Call.turnsLeft, StopPoint.turnsLeft])
  refine ⟨hend.1, fun other => ?_⟩
  split_ifs with hother
  · rw [← hother]
    rcases hend.2.left with ⟨stops, -, heq⟩ | ⟨-, hnone⟩
    · simp at heq
    · exact hnone
  · exact hend.2.others other (Ne.symm hother)

end

/-! ## The same live mounts -/

section

variable [P : Primitives] {σ : Type} {daemon : Daemon σ} {manager : MountManager}
  {outside : Outside}

/-- A start that runs alone does to the live mounts what `start` does in one step. -/
theorem SameMounts.start_alone [BucketLogProvider σ] (h : SameMounts daemon manager)
    (env : PeerEnv) (id : Uuid) (hquery : outside.query = none)
    (hload : ∀ row, manager.table.get id = some row → (outside.load = none ↔
      ∃ inner, daemon.peer.mountHead env row.bucketId = .ok inner)) :
    SameMounts ((start env ((manager.table.get id).map FuseMountRow.config)
        outside.spawn.isNone id).run daemon).state
      (MountTask.alone (List.replicate 6 outside) manager ⟨[.start id false .get], []⟩).1 := by
  obtain ⟨-, hmounts⟩ := @JaxFs.start_alone manager outside id hquery
  cases hget : manager.table.get id with
  | none =>
      rw [hget] at hmounts
      exact h.of_mounts rfl hmounts
  | some row =>
      rw [hget] at hmounts
      have hfree := h.running id
      cases hrunning : manager.running id with
      | true =>
          rw [hrunning] at hmounts hfree
          refine h.of_mounts ?_ hmounts
          unfold start
          rw [run_getDaemon_bind, Option.map_some]
          dsimp only
          rw [hfree]
          rfl
      | false =>
          rw [hrunning] at hmounts hfree
          have hrow := hload row hget
          cases hhead : daemon.peer.mountHead env row.bucketId with
          | error fault =>
              have hsome : outside.load.isSome = true := by
                rw [Option.isSome_iff_ne_none]
                intro hnone
                obtain ⟨inner, hinner⟩ := hrow.mp hnone
                rw [hhead] at hinner
                contradiction
              rw [hsome] at hmounts
              refine h.of_mounts ?_ hmounts
              have hconfig : daemon.peer.mountHead env (FuseMountRow.config row).bucketId =
                  .error fault := hhead
              unfold start
              rw [run_getDaemon_bind, Option.map_some]
              dsimp only
              rw [hfree, hconfig]
              rfl
          | ok inner =>
              have hnone : outside.load = none := hrow.mpr ⟨inner, hhead⟩
              rw [hnone] at hmounts
              have hrun : (start env (some row.config) outside.spawn.isNone id).run daemon = _ :=
                run_start outside.spawn.isNone hfree hhead
              rw [Option.map_some, hrun]
              cases hspawn : outside.spawn with
              | some error =>
                  rw [hspawn] at hmounts
                  exact h.of_mounts rfl hmounts
              | none =>
                  rw [hspawn] at hmounts
                  exact h.put rfl hmounts rfl

/-- A stop that runs alone does to the live mounts what `Daemon.stop` does in one step. -/
theorem SameMounts.stop_alone (h : SameMounts daemon manager) (id : Uuid) :
    SameMounts (daemon.stop id)
      (MountTask.alone (List.replicate 4 outside) manager ⟨[.stop id .stopping], []⟩).1 := by
  obtain ⟨-, hmounts⟩ := @JaxFs.stop_alone manager outside id
  have hid := h id
  unfold Daemon.stop
  unfold takeSession at hmounts
  cases hdaemon : daemon.mounts.get? id <;> cases hmanager : manager.mounts.get? id <;>
    rw [hdaemon, hmanager] at hid
  · rw [hmanager] at hmounts
    exact h.of_mounts rfl hmounts
  · cases hid
  · cases hid
  · rw [hmanager] at hmounts
    refine h.put rfl hmounts ?_
    have hview := congrArg Prod.snd (Option.some.inj hid)
    exact congrArg (Prod.mk false) hview

/-- A delete that runs alone does to the live mounts what `Daemon.delete` does in one step. -/
theorem SameMounts.delete_alone (h : SameMounts daemon manager) (id : Uuid) :
    SameMounts (daemon.delete id) (MountTask.alone (List.replicate 6 outside) manager
      ⟨[.stop id .stopping, .remove id, .deleteRow id], []⟩).1 := by
  obtain ⟨-, hmounts⟩ := @JaxFs.delete_alone manager outside id
  intro other
  have hother : (daemon.delete id).mounts.get? other =
      if id = other then none else daemon.mounts.get? other := by
    unfold Daemon.delete Daemon.stop
    dsimp only
    rw [FinMap.get?_erase]
    split_ifs with heq
    · rfl
    · cases hget : daemon.mounts.get? id with
      | none => rfl
      | some live => exact FinMap.get?_put_of_ne _ _ heq
  rw [hother, hmounts other]
  split_ifs
  · rfl
  · exact h other

end

end JaxFs

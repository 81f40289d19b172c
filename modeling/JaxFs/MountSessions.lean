import JaxFs.MountLifecycle

/-!
# Sessions and their owners

A FUSE session is held by a live mount or by the start that has just spawned it.  Whatever
requests run side by side, every session that is alive has one owner, which knows the path
where it is mounted, so that none is left behind: when all requests have ended, the sessions
are those of the live mounts.
-/

namespace JaxFs

open MountManager

/-! ## Who holds a session -/

/-- The session of a live mount, with the path that the mount was started at. -/
def LiveHandle.held (live : LiveHandle) : Option (ℕ × Name) :=
  live.session.map (fun session => (session, live.config.mountPoint))

namespace MountManager

def heldBy (manager : MountManager) (id : Uuid) : Option (ℕ × Name) :=
  (manager.mounts.get? id).bind LiveHandle.held

/-- The session is alive and mounted at the path. -/
def Alive (manager : MountManager) (session : ℕ × Name) : Prop :=
  manager.sessions.get? session.1 = some session.2

/-- A start holds its session until it has stored it. -/
def Call.held : Call → Option (ℕ × Name)
  | .start _ _ (.insert config session) => some (session, config.mountPoint)
  | _ => none

end MountManager

def MountTask.held (task : MountTask) : Option (ℕ × Name) := task.calls.head?.bind Call.held

/-- Live mounts and tasks are the owners of sessions. -/
def MountDaemon.holds (daemon : MountDaemon) : Uuid ⊕ ℕ → Option (ℕ × Name)
  | .inl id => daemon.shared.heldBy id
  | .inr number => (daemon.tasks[number]?).bind MountTask.held

namespace MountManager

/-! ## What a turn does to the sessions -/

section

variable {manager : MountManager} {id : Uuid}

theorem heldBy_store (live : LiveHandle) (other : Uuid) :
    (manager.store id live).heldBy other =
      if id = other then live.held else manager.heldBy other := by
  unfold heldBy store
  rw [FinMap.get?_put]
  split_ifs <;> rfl

theorem heldBy_remove (other : Uuid) :
    (manager.remove id).heldBy other = if id = other then none else manager.heldBy other := by
  unfold heldBy remove
  rw [FinMap.get?_erase]
  split_ifs <;> rfl

theorem heldBy_eq_none_iff : manager.heldBy id = none ↔ manager.running id = false := by
  unfold heldBy running LiveHandle.held
  cases manager.mounts.get? id with
  | none => simp
  | some live => cases live.session <;> simp

/-- The handle of a session that is alive ends it, and no other one, when it is dropped. -/
theorem get?_sessionsWithout
    (hlive : ∀ session, manager.heldBy id = some session → manager.Alive session)
    (session : ℕ × Name) :
    (manager.sessionsWithout (manager.sessionOf id)).get? session.1 = some session.2 ↔
      manager.Alive session ∧ manager.heldBy id ≠ some session := by
  unfold sessionOf Alive
  unfold heldBy LiveHandle.held at hlive ⊢
  cases hget : manager.mounts.get? id with
  | none => simp [sessionsWithout]
  | some live =>
      rw [hget] at hlive
      cases hsession : live.session with
      | none => simp [sessionsWithout, hsession]
      | some held =>
          have halive := hlive (held, live.config.mountPoint) (by simp [hsession])
          unfold Alive at halive
          simp only [Option.bind_some, hsession, sessionsWithout, FinMap.get?_erase,
            Option.map_some]
          by_cases hheld : held = session.1
          · rw [if_pos hheld]
            constructor
            · simp
            · intro h
              refine absurd ?_ h.2
              rw [← hheld, halive] at h
              exact congrArg some (Prod.ext hheld (Option.some.inj h.1))
          · rw [if_neg hheld]
            constructor
            · intro h
              refine ⟨h, fun heq => hheld ?_⟩
              rw [← Option.some.inj heq]
            · exact And.left

end

/-- What a turn of a call does to the sessions: nothing, or it spawns one that it holds from
then on, stores the one it holds in a live mount, or takes the one of a live mount. -/
inductive SessionEffect (manager : MountManager) (call : Call) (progress : Progress) : Prop
  | keeps (held : ∀ id, progress.manager.heldBy id = manager.heldBy id)
      (sessions : progress.manager.sessions = manager.sessions)
      (spawned : progress.manager.spawned = manager.spawned)
      (before : call.held = none) (after : ∀ next ∈ progress.calls, next.held = none)
  | spawns (config : FuseMountRow) (next : Call)
      (manages : progress.manager = manager.spawn config) (before : call.held = none)
      (calls : progress.calls = [next])
      (after : next.held = some (manager.spawned, config.mountPoint))
  | stores (id : Uuid) (held : ∀ other, progress.manager.heldBy other =
        if id = other then call.held else manager.heldBy other)
      (sessions : progress.manager.sessions = manager.sessionsWithout (manager.sessionOf id))
      (spawned : progress.manager.spawned = manager.spawned)
      (after : ∀ next ∈ progress.calls, next.held = none)

section

variable {outside : Outside} {manager : MountManager} {call : Call}

/-- Nothing happens to the sessions. -/
theorem SessionEffect.of_mounts {progress : Progress}
    (hmounts : progress.manager.mounts = manager.mounts)
    (hsessions : progress.manager.sessions = manager.sessions)
    (hspawned : progress.manager.spawned = manager.spawned) (hcall : call.held = none)
    (hcalls : ∀ next ∈ progress.calls, next.held = none) :
    SessionEffect manager call progress := by
  refine .keeps (fun id => ?_) hsessions hspawned hcall hcalls
  unfold heldBy
  rw [hmounts]

theorem SessionEffect.query {go : Progress} {fail : MountManagerError → Progress}
    (hgo : SessionEffect manager call go)
    (hfail : ∀ error, SessionEffect manager call (fail error)) :
    SessionEffect manager call (query outside go fail) := by
  unfold MountManager.query
  cases outside.query with
  | none => exact hgo
  | some message => exact hfail _

theorem sessionEffect_finish (hcall : call.held = none)
    (result : Except MountManagerError Answer) :
    SessionEffect manager call (.finish manager result) :=
  .of_mounts rfl rfl rfl hcall (by simp [Progress.finish])

theorem SessionEffect.goOn {manager' : MountManager} {next : Call}
    (hmounts : manager'.mounts = manager.mounts) (hsessions : manager'.sessions = manager.sessions)
    (hspawned : manager'.spawned = manager.spawned) (hcall : call.held = none)
    (hnext : next.held = none) : SessionEffect manager call (.goOn manager' next) :=
  .of_mounts hmounts hsessions hspawned hcall (by simpa [Progress.goOn] using hnext)

theorem sessionEffect_startFailed (hcall : call.held = none) (id : Uuid) (auto : Bool)
    (error : MountManagerError) :
    SessionEffect manager call (manager.startFailed id auto error) := by
  refine .of_mounts rfl rfl rfl hcall ?_
  intro next hnext
  cases auto with
  | false => simp [startFailed] at hnext
  | true =>
      obtain rfl := List.mem_singleton.mp hnext
      rfl

theorem sessionEffect_createTurn (newMount : NewMount) (point : CreatePoint) :
    SessionEffect manager (.createMount newMount point)
      (createTurn outside manager newMount point) := by
  cases point with
  | check =>
      refine .query ?_ (fun _ => sessionEffect_finish rfl _)
      split_ifs
      · split
        · exact .goOn rfl rfl rfl rfl rfl
        · exact sessionEffect_finish rfl _
      · exact sessionEffect_finish rfl _
  | insert =>
      refine .query ?_ (fun _ => sessionEffect_finish rfl _)
      split
      · exact .goOn rfl rfl rfl rfl rfl
      · exact sessionEffect_finish rfl _
  | get mountId =>
      refine .query ?_ (fun _ => sessionEffect_finish rfl _)
      split <;> exact sessionEffect_finish rfl _

theorem sessionEffect_updateTurn (id : Uuid) (changes : MountChanges) (point : UpdatePoint) :
    SessionEffect manager (.update id changes point)
      (updateTurn outside manager id changes point) := by
  cases point with
  | get =>
      refine .query ?_ (fun _ => sessionEffect_finish rfl _)
      split
      · exact sessionEffect_finish rfl _
      · exact .goOn rfl rfl rfl rfl rfl
  | write existing =>
      refine .query ?_ (fun _ => sessionEffect_finish rfl _)
      split
      · exact .goOn rfl rfl rfl rfl rfl
      · exact sessionEffect_finish rfl _
  | reread => exact .query (sessionEffect_finish rfl _) (fun _ => sessionEffect_finish rfl _)

theorem sessionEffect_startTurn (id : Uuid) (auto : Bool) (point : StartPoint) :
    SessionEffect manager (.start id auto point) (startTurn outside manager id auto point) := by
  cases point with
  | get =>
      refine .query ?_ (sessionEffect_startFailed rfl id auto)
      split
      · exact sessionEffect_startFailed rfl id auto _
      · exact .goOn rfl rfl rfl rfl rfl
  | check config =>
      unfold startTurn
      split_ifs
      · exact sessionEffect_startFailed rfl id auto _
      · exact .goOn rfl rfl rfl rfl rfl
  | starting config =>
      refine .query ?_ (sessionEffect_startFailed rfl id auto)
      exact .goOn rfl rfl rfl rfl rfl
  | load config =>
      unfold startTurn
      cases outside.load with
      | some error => exact sessionEffect_startFailed rfl id auto _
      | none =>
          cases outside.spawn with
          | some error => exact sessionEffect_startFailed rfl id auto _
          | none => exact .spawns config _ rfl rfl rfl rfl
  | insert config session =>
      exact .stores id (heldBy_store _) rfl rfl (by simp [startTurn, Progress.goOn, Call.held])
  | running config =>
      refine .query ?_ (sessionEffect_startFailed rfl id auto)
      exact .of_mounts rfl rfl rfl rfl (by simp [Progress.finish])

theorem sessionEffect_stopTurn (id : Uuid) (point : StopPoint) :
    SessionEffect manager (.stop id point) (stopTurn outside manager id point) := by
  cases point with
  | stopping =>
      unfold stopTurn
      exact .query (.goOn rfl rfl rfl rfl rfl) (fun _ => .goOn rfl rfl rfl rfl rfl)
  | take =>
      unfold stopTurn
      dsimp only
      cases hget : manager.mounts.get? id with
      | none =>
          refine .query ?_ (fun _ => sessionEffect_finish rfl _)
          split
          · exact .goOn rfl rfl rfl rfl rfl
          · exact sessionEffect_finish rfl _
      | some live =>
          have htake : manager.takeSession id = manager.store id { live with session := none } := by
            unfold takeSession
            rw [hget]
          dsimp only
          rw [htake]
          exact .stores id (heldBy_store _) rfl rfl (by simp [Progress.goOn, Call.held])
  | unmount mountPoint =>
      unfold stopTurn
      cases outside.unmount with
      | some error => exact sessionEffect_finish rfl _
      | none => exact .goOn rfl rfl rfl rfl rfl
  | stopped =>
      refine .query ?_ (fun _ => sessionEffect_finish rfl _)
      exact .of_mounts rfl rfl rfl rfl (by simp [Progress.finish])

theorem sessionEffect_turn (call : Call) :
    SessionEffect manager call (call.turn outside manager) := by
  cases call with
  | createMount newMount point => exact sessionEffect_createTurn newMount point
  | update id changes point => exact sessionEffect_updateTurn id changes point
  | start id auto point => exact sessionEffect_startTurn id auto point
  | setError id error =>
      unfold Call.turn
      exact .query (.of_mounts rfl rfl rfl rfl (by simp))
        (fun _ => .of_mounts rfl rfl rfl rfl (by simp))
  | stop id point => exact sessionEffect_stopTurn id point
  | remove id => exact .stores id heldBy_remove rfl rfl (by simp [Call.turn])
  | deleteRow id =>
      refine .query ?_ (fun _ => sessionEffect_finish rfl _)
      exact .of_mounts rfl rfl rfl rfl (by simp [Progress.finish])
  | startAuto =>
      refine .query ?_ (fun _ => sessionEffect_finish rfl _)
      exact .of_mounts rfl rfl rfl rfl (by simp [Call.held])
  | stopAll => exact .of_mounts rfl rfl rfl rfl (by simp [Call.turn, Call.held])

end

theorem MountRequest.held_calls (request : MountRequest) :
    ∀ call ∈ request.calls, call.held = none := by
  cases request <;> simp [MountRequest.calls, Call.held]

end MountManager

/-! ## Every session has one owner -/

/-- Who holds which session, in a daemon. -/
structure MountDaemon.Accounted (daemon : MountDaemon) : Prop where
  owns : Owns daemon.holds daemon.shared.Alive
  spawned : ∀ session, daemon.shared.Alive session → session.1 < daemon.shared.spawned
  waiting : ∀ task ∈ daemon.tasks, ∀ call ∈ task.calls.tail, call.held = none

namespace MountDaemon

theorem accounted_boot (table : FuseMounts) : (boot table).Accounted := by
  have hholds : ∀ owner, (boot table).holds owner = none := by
    intro owner
    cases owner <;> rfl
  have halive : ∀ session, ¬ (boot table).shared.Alive session := by
    intro session
    simp [Alive, boot, MountManager.new]
  constructor
  · constructor
    · intro owner session howner
      rw [hholds owner] at howner
      contradiction
    · intro owner owner' session howner
      rw [hholds owner] at howner
      contradiction
    · exact fun session h => absurd h (halive session)
  · exact fun session h => absurd h (halive session)
  · simp [boot]

/-- A new request holds nothing. -/
theorem Accounted.request {daemon : MountDaemon} (h : daemon.Accounted) (request : MountRequest) :
    (daemon.step (.request request)).Accounted := by
  have hnone : MountTask.held ⟨request.calls, []⟩ = none := by
    unfold MountTask.held
    cases hhead : request.calls.head? with
    | none => rfl
    | some call => exact request.held_calls call (List.mem_of_mem_head? hhead)
  refine ⟨h.owns.congr ?_ (fun _ => Iff.rfl), h.spawned, ?_⟩
  · intro owner
    cases owner with
    | inl id => rfl
    | inr number =>
        change ((daemon.tasks ++ [_])[number]?).bind _ = (daemon.tasks[number]?).bind _
        rcases lt_trichotomy number daemon.tasks.length with hlt | rfl | hgt
        · rw [List.getElem?_append_left hlt]
        · rw [List.getElem?_concat_length, List.getElem?_eq_none le_rfl]
          exact hnone
        · rw [List.getElem?_eq_none (by simpa using hgt), List.getElem?_eq_none hgt.le]
  · intro task htask call hcall
    rcases List.mem_append.mp htask with htask | htask
    · exact h.waiting task htask call hcall
    · obtain rfl := List.mem_singleton.mp htask
      exact request.held_calls call (List.mem_of_mem_tail hcall)

/-- A task holds what its first call holds. -/
theorem held_append {calls rest : List Call} (hrest : ∀ call ∈ rest, call.held = none) :
    (calls ++ rest).head?.bind Call.held = calls.head?.bind Call.held := by
  cases calls with
  | cons call calls => rfl
  | nil =>
      cases rest with
      | nil => rfl
      | cons call rest => exact hrest call List.mem_cons_self

/-- The daemon after a turn of a call. -/
def progressed (daemon : MountDaemon) (number : ℕ) (task : MountTask) (rest : List Call)
    (progress : Progress) : MountDaemon :=
  ⟨progress.manager, daemon.tasks.set number
    ⟨progress.calls ++ rest, task.results ++ progress.results⟩⟩

theorem turn_cases (daemon : MountDaemon) (number : ℕ) (outside : Outside) :
    daemon.step (.turn number outside) = daemon ∨
      ∃ task call rest, daemon.tasks[number]? = some task ∧ task.calls = call :: rest ∧
        daemon.step (.turn number outside) =
          daemon.progressed number task rest (call.turn outside daemon.shared) := by
  change Interleaved.turn (MountTask.turn outside) daemon number = daemon ∨ ∃ task call rest,
    _ ∧ _ ∧ Interleaved.turn (MountTask.turn outside) daemon number = _
  cases htask : daemon.tasks[number]? with
  | none => exact Or.inl (Interleaved.turn_of_none htask)
  | some task =>
      rw [Interleaved.turn_of_some htask]
      unfold MountTask.turn
      cases hcalls : task.calls with
      | nil =>
          obtain ⟨hnumber, hget⟩ := List.getElem?_eq_some_iff.mp htask
          left
          dsimp only
          rw [← hget, List.set_getElem_self]
      | cons call rest => exact Or.inr ⟨task, call, rest, rfl, hcalls, rfl⟩

section

variable {daemon : MountDaemon} {number : ℕ} {task : MountTask} {rest : List Call}
  {progress : Progress}

theorem holds_progressed_self (hnumber : daemon.tasks[number]? = some task)
    (hrest : ∀ call ∈ rest, call.held = none) :
    (daemon.progressed number task rest progress).holds (.inr number) =
      progress.calls.head?.bind Call.held := by
  unfold holds progressed
  dsimp only
  rw [List.getElem?_set_self (List.getElem?_eq_some_iff.mp hnumber).1]
  exact held_append hrest

theorem holds_progressed_of_ne {other : ℕ} (hother : other ≠ number) :
    (daemon.progressed number task rest progress).holds (.inr other) =
      daemon.holds (.inr other) := by
  unfold holds progressed
  dsimp only
  rw [List.getElem?_set_ne (Ne.symm hother)]

/-- Calls that hold nothing leave their task with nothing. -/
theorem head?_bind_held {calls : List Call} (h : ∀ call ∈ calls, call.held = none) :
    calls.head?.bind Call.held = none := by
  cases calls with
  | nil => rfl
  | cons call rest => exact h call List.mem_cons_self

theorem Accounted.waiting_progressed (h : daemon.Accounted)
    (hrest : ∀ call ∈ rest, call.held = none)
    (hcalls : ∀ call ∈ progress.calls.tail, call.held = none) :
    ∀ other ∈ (daemon.progressed number task rest progress).tasks,
      ∀ call ∈ other.calls.tail, call.held = none := by
  intro other hother call hcall
  rcases List.mem_or_eq_of_mem_set hother with hold | rfl
  · exact h.waiting other hold call hcall
  · dsimp only at hcall
    cases hnext : progress.calls with
    | nil =>
        rw [hnext] at hcall
        exact hrest call (List.mem_of_mem_tail hcall)
    | cons next calls =>
        rw [hnext] at hcall hcalls
        rcases List.mem_append.mp hcall with hnew | hold
        · exact hcalls call hnew
        · exact hrest call hold

theorem Accounted.progressed {call : Call} (h : daemon.Accounted)
    (htask : daemon.tasks[number]? = some task) (hcalls : task.calls = call :: rest)
    (heffect : SessionEffect daemon.shared call progress) :
    (daemon.progressed number task rest progress).Accounted := by
  have hrest : ∀ call ∈ rest, call.held = none := by
    have hwaiting := h.waiting task (List.mem_of_getElem? htask)
    rw [hcalls] at hwaiting
    exact hwaiting
  have hbefore : daemon.holds (.inr number) = call.held := by
    unfold holds
    dsimp only
    rw [htask, Option.bind_some, MountTask.held, hcalls]
    rfl
  have hself := @holds_progressed_self daemon number task rest progress htask hrest
  cases heffect with
  | keeps hheld hsessions hspawned hcall hnone =>
      rw [head?_bind_held hnone] at hself
      refine ⟨h.owns.congr ?_ ?_, ?_, h.waiting_progressed hrest
        (fun call hcall => hnone call (List.mem_of_mem_tail hcall))⟩
      · intro owner
        cases owner with
        | inl id => exact hheld id
        | inr other =>
            by_cases hother : other = number
            · rw [hother, hself, hbefore, hcall]
            · exact holds_progressed_of_ne hother
      · intro session
        change progress.manager.sessions.get? _ = _ ↔ _
        rw [hsessions]
        rfl
      · intro session hsession
        change progress.manager.sessions.get? _ = _ at hsession
        change _ < progress.manager.spawned
        rw [hspawned]
        rw [hsessions] at hsession
        exact h.spawned session hsession
  | spawns config next hmanages hcall hnext hheld =>
      have hfresh : ¬ daemon.shared.Alive (daemon.shared.spawned, config.mountPoint) := by
        intro halive
        exact absurd (h.spawned _ halive) (lt_irrefl _)
      have hnumber : (daemon.progressed number task rest progress).holds (.inr number) =
          some (daemon.shared.spawned, config.mountPoint) := by
        rw [hself, hnext]
        exact hheld
      have halive : ∀ session, progress.manager.Alive session ↔
          daemon.shared.Alive session ∨ session = (daemon.shared.spawned, config.mountPoint) := by
        intro session
        unfold Alive
        rw [hmanages]
        unfold spawn
        dsimp only
        rw [FinMap.get?_put]
        split_ifs with hsession
        · constructor
          · intro heq
            exact Or.inr (Prod.ext hsession.symm (Option.some.inj heq).symm)
          · intro hor
            rcases hor with hold | hnew
            · have hlt := h.spawned session hold
              omega
            · rw [hnew]
        · constructor
          · exact Or.inl
          · intro hor
            rcases hor with hold | hnew
            · exact hold
            · exact absurd (congrArg Prod.fst hnew).symm hsession
      refine ⟨h.owns.acquire hfresh (hbefore.trans hcall) hnumber ?_ halive, ?_,
        h.waiting_progressed hrest (by simp [hnext])⟩
      · intro owner howner
        cases owner with
        | inl id =>
            change progress.manager.heldBy id = _
            rw [hmanages]
            rfl
        | inr other => exact holds_progressed_of_ne (fun heq => howner (congrArg Sum.inr heq))
      · intro session hsession
        change _ < progress.manager.spawned
        rw [hmanages]
        change _ < daemon.shared.spawned + 1
        rcases (halive session).mp hsession with hold | rfl
        · exact (h.spawned session hold).trans (Nat.lt_succ_self _)
        · exact Nat.lt_succ_self _
  | stores id hheld hsessions hspawned hnone =>
      rw [head?_bind_held hnone] at hself
      have halive : ∀ session, progress.manager.Alive session ↔
          daemon.shared.Alive session ∧ daemon.holds (.inl id) ≠ some session := by
        intro session
        unfold Alive
        rw [hsessions]
        exact get?_sessionsWithout (h.owns.live (.inl id)) session
      have hne : (Sum.inr number : Uuid ⊕ ℕ) ≠ Sum.inl id := Sum.inr_ne_inl
      refine ⟨h.owns.transfer hne hself ?_ ?_ halive, ?_,
        h.waiting_progressed hrest (fun call hcall => hnone call (List.mem_of_mem_tail hcall))⟩
      · rw [hbefore]
        exact (hheld id).trans (if_pos rfl)
      · intro owner howner howner'
        cases owner with
        | inl other =>
            have hne : id ≠ other := fun heq => howner' (congrArg Sum.inl heq.symm)
            exact (hheld other).trans (if_neg hne)
        | inr other => exact holds_progressed_of_ne (fun heq => howner (congrArg Sum.inr heq))
      · intro session hsession
        change _ < progress.manager.spawned
        rw [hspawned]
        exact h.spawned session ((halive session).mp hsession).1

end

theorem Accounted.step {daemon : MountDaemon} (h : daemon.Accounted) (action : Action) :
    (daemon.step action).Accounted := by
  cases action with
  | request request => exact h.request request
  | turn number outside =>
      rcases daemon.turn_cases number outside with hsame | ⟨task, call, rest, htask, hcalls, hstep⟩
      · rw [hsame]
        exact h
      · rw [hstep]
        exact h.progressed htask hcalls (sessionEffect_turn call)

theorem Accounted.run {daemon : MountDaemon} (h : daemon.Accounted) (actions : List Action) :
    (daemon.run actions).Accounted := by
  induction actions generalizing daemon with
  | nil => exact h
  | cons action rest ih => exact ih (h.step action)

/-- At rest the live mounts hold all sessions. -/
theorem Accounted.owner_of_rest {daemon : MountDaemon} (h : daemon.Accounted)
    (hrest : ∀ task ∈ daemon.tasks, task.calls = []) {session : ℕ × Name}
    (halive : daemon.shared.Alive session) : ∃ id, daemon.shared.heldBy id = some session := by
  obtain ⟨owner, howner⟩ := h.owns.owned session halive
  cases owner with
  | inl id => exact ⟨id, howner⟩
  | inr number =>
      obtain ⟨task, htask, hheld⟩ := Option.bind_eq_some_iff.mp howner
      unfold MountTask.held at hheld
      rw [hrest task (List.mem_of_getElem? htask)] at hheld
      contradiction

/-- Whatever requests run side by side, in any order and with any errors: a session is alive
exactly when one owner holds it, a live mount or a start, which knows where it is mounted.
When all requests have ended, it is one live mount. -/
theorem sessions_have_one_owner (table : FuseMounts) (actions : List Action) :
    let daemon := (boot table).run actions
    (∀ session, daemon.shared.Alive session ↔ ∃! owner, daemon.holds owner = some session) ∧
      ((∀ task ∈ daemon.tasks, task.calls = []) → ∀ session,
        daemon.shared.Alive session ↔ ∃! id, daemon.shared.heldBy id = some session) := by
  have h := (accounted_boot table).run actions
  generalize (boot table).run actions = daemon at h
  constructor
  · intro session
    constructor
    · intro halive
      obtain ⟨owner, howner⟩ := h.owns.owned session halive
      exact ⟨owner, howner, fun other hother => h.owns.unique other owner session hother howner⟩
    · intro hunique
      obtain ⟨owner, howner, -⟩ := hunique
      exact h.owns.live owner session howner
  · intro hrest session
    constructor
    · intro halive
      obtain ⟨id, hid⟩ := h.owner_of_rest hrest halive
      refine ⟨id, hid, fun other hother => ?_⟩
      exact Sum.inl_injective (h.owns.unique (.inl other) (.inl id) session hother hid)
    · intro hunique
      obtain ⟨id, hid, -⟩ := hunique
      exact h.owns.live (.inl id) session hid

end MountDaemon

end JaxFs

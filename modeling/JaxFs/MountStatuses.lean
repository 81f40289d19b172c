import JaxFs.MountStages

/-!
# What the status of a mount tells

The requests for different mounts run side by side, and no mount has two requests at the same
time.  Then a mount without a request is running when its row says so, unless the row is one
that an earlier daemon has left behind, and one that is running says so, or has the error of
an automatic start that came too late.
-/

namespace JaxFs

open MountManager

/-! ## Requests for one mount, one after another -/

def MountTask.subject? (task : MountTask) : Option Uuid := task.calls.head?.bind Call.subject?

namespace MountDaemon

/-- A request is working on the mount. -/
def Busy (daemon : MountDaemon) (id : Uuid) : Prop :=
  ∃ task ∈ daemon.tasks, task.subject? = some id

/-- No mount has two requests at the same time. -/
def Exclusive (daemon : MountDaemon) : Prop :=
  (daemon.tasks.filterMap MountTask.subject?).Nodup

theorem Exclusive.eq_of_subject? {daemon : MountDaemon} (h : daemon.Exclusive) {id : Uuid}
    {number number' : ℕ} {task task' : MountTask} (htask : daemon.tasks[number]? = some task)
    (htask' : daemon.tasks[number']? = some task') (hid : task.subject? = some id)
    (hid' : task'.subject? = some id) : number = number' := by
  unfold Exclusive List.Nodup at h
  rw [List.pairwise_filterMap, List.pairwise_iff_getElem] at h
  obtain ⟨hlt, rfl⟩ := List.getElem?_eq_some_iff.mp htask
  obtain ⟨hlt', rfl⟩ := List.getElem?_eq_some_iff.mp htask'
  rcases lt_trichotomy number number' with hbefore | heq | hafter
  · exact absurd rfl (h number number' hlt hlt' hbefore id hid id hid')
  · exact heq
  · exact absurd rfl (h number' number hlt' hlt hafter id hid' id hid)

instance (daemon : MountDaemon) : Decidable daemon.Exclusive :=
  inferInstanceAs (Decidable (List.Nodup _))

/-- The query of the turn, if there is one, succeeds. -/
def Action.QuerySucceeds : Action → Prop
  | .request _ => True
  | .turn _ outside => outside.query = none

instance (action : Action) : Decidable action.QuerySucceeds :=
  match action with
  | .request _ => isTrue trivial
  | .turn _ outside => inferInstanceAs (Decidable (outside.query = none))

/-- Every mount is settled, or is where the request for it has come to. -/
structure Statuses (stale : Uuid → Prop) (daemon : MountDaemon) : Prop where
  idle : ∀ id, ¬ daemon.Busy id → daemon.shared.Settled stale id
  here : ∀ task ∈ daemon.tasks, ∀ call ∈ task.calls.head?, call.At stale daemon.shared
  follows : ∀ task ∈ daemon.tasks, task.calls.IsChain Call.Follows

/-- A row of the table says at the start of the daemon that its mount is running. -/
def Stale (table : FuseMounts) (id : Uuid) : Prop :=
  (table.get id).map FuseMountRow.status = some .running

theorem statuses_boot (table : FuseMounts) : (boot table).Statuses (Stale table) := by
  refine ⟨fun id _ => ⟨?_, ?_, ?_⟩, ?_, ?_⟩
  · exact fun h => absurd h (by simp [boot, MountManager.new])
  · exact fun h => Or.inr ⟨h, rfl⟩
  · exact fun h => absurd h (by simp [boot, MountManager.new, running])
  · simp [boot]
  · simp [boot]

theorem isChain_calls (request : MountRequest) : request.calls.IsChain Call.Follows := by
  cases request with
  | delete id =>
      refine List.isChain_cons_cons.mpr ⟨Or.inr (Or.inl ⟨id, .stopping, rfl, rfl⟩), ?_⟩
      exact List.isChain_cons_cons.mpr ⟨Or.inr (Or.inr ⟨id, rfl, rfl⟩), List.isChain_singleton _⟩
  | _ => exact List.isChain_singleton _

section

variable {stale : Uuid → Prop} {daemon : MountDaemon}

/-- The first call of a request is where it is to be, when no other request is working on its
mount. -/
theorem at_of_request {request : MountRequest} {manager : MountManager}
    (h : ∀ id, MountTask.subject? ⟨request.calls, []⟩ = some id → manager.Settled stale id) :
    ∀ call ∈ request.calls.head?, call.At stale manager := by
  intro call hcall
  cases request with
  | start id =>
      cases hcall
      exact h id rfl
  | stop id =>
      cases hcall
      exact h id rfl
  | delete id =>
      cases hcall
      exact h id rfl
  | _ =>
      cases hcall
      trivial

theorem Statuses.request (h : daemon.Statuses stale) (request : MountRequest)
    (hexclusive : (daemon.step (.request request)).Exclusive) :
    (daemon.step (.request request)).Statuses stale := by
  have hidle : ∀ id, MountTask.subject? ⟨request.calls, []⟩ = some id → ¬ daemon.Busy id := by
    intro id hid hbusy
    obtain ⟨task, htask, hsubject⟩ := hbusy
    obtain ⟨number, hnumber⟩ := List.mem_iff_getElem?.mp htask
    have hlt := (List.getElem?_eq_some_iff.mp hnumber).1
    have hold : (daemon.step (.request request)).tasks[number]? = some task :=
      (List.getElem?_append_left hlt).trans hnumber
    have hnew : (daemon.step (.request request)).tasks[daemon.tasks.length]? =
        some ⟨request.calls, []⟩ := List.getElem?_concat_length
    have heq := hexclusive.eq_of_subject? hold hnew hsubject hid
    omega
  constructor
  · intro id hbusy
    apply h.idle
    intro hold
    obtain ⟨task, htask, hsubject⟩ := hold
    exact hbusy ⟨task, List.mem_append_left _ htask, hsubject⟩
  · intro task htask
    rcases List.mem_append.mp htask with hold | hnew
    · exact h.here task hold
    · rw [List.mem_singleton.mp hnew]
      exact at_of_request (fun id hid => h.idle id (hidle id hid))
  · intro task htask
    rcases List.mem_append.mp htask with hold | hnew
    · exact h.follows task hold
    · rw [List.mem_singleton.mp hnew]
      exact isChain_calls request

/-- After a call for no mount comes one that has not begun. -/
theorem initial_of_subject? {call after : Call} (hsubject : call.subject? = none)
    (h : call.Follows after) : after.Initial := by
  refine initial_of_follows ?_ ?_ h
  · intro id point heq
    rw [heq] at hsubject
    contradiction
  · intro id heq
    rw [heq] at hsubject
    contradiction

/-- What is left of a task after a turn may go on. -/
theorem isChain_progressed {call : Call} {rest : List Call} {manager : MountManager}
    {progress : Progress} (hproceeds : Proceeds stale manager call progress)
    (h : (call :: rest).IsChain Call.Follows) :
    (progress.calls ++ rest).IsChain Call.Follows := by
  cases hproceeds with
  | ended hcalls _ =>
      rw [hcalls]
      exact h.tail
  | goesOn next hcalls _ _ hfollows =>
      rw [hcalls, List.singleton_append]
      cases rest with
      | nil => exact List.isChain_singleton _
      | cons after rest =>
          obtain ⟨hafter, hrest⟩ := List.isChain_cons_cons.mp h
          exact List.isChain_cons_cons.mpr ⟨hfollows after hafter, hrest⟩
  | lists hsubject _ hinitial =>
      refine List.isChain_append.mpr ⟨?_, h.tail, ?_⟩
      · generalize progress.calls = calls at hinitial
        induction calls with
        | nil => exact List.isChain_nil
        | cons first calls ih =>
            have htail := ih (fun next hnext => hinitial next (List.mem_cons_of_mem _ hnext))
            cases calls with
            | nil => exact List.isChain_singleton _
            | cons second calls =>
                exact List.isChain_cons_cons.mpr ⟨Or.inl (hinitial second (by simp)), htail⟩
      · intro last hlast after hafter
        cases rest with
        | nil => contradiction
        | cons first rest =>
            cases hafter
            obtain ⟨hfollows, -⟩ := List.isChain_cons_cons.mp h
            exact Or.inl (initial_of_subject? hsubject hfollows)

variable {number : ℕ} {task : MountTask} {call : Call} {rest : List Call} {progress : Progress}

/-- A mount that no other task is working on is settled after the turn, unless the call goes
on with it. -/
theorem Statuses.settled_progressed (h : daemon.Statuses stale)
    (htask : daemon.tasks[number]? = some task) (hcalls : task.calls = call :: rest)
    (hothers : ∀ id, call.subject? ≠ some id → Undisturbed daemon.shared progress.manager id)
    {id : Uuid} (hfree : ∀ (other : ℕ) task', other ≠ number →
      daemon.tasks[other]? = some task' → task'.subject? ≠ some id)
    (hended : call.subject? = some id → call.Ended stale progress.manager) :
    progress.manager.Settled stale id := by
  by_cases hsubject : call.subject? = some id
  · exact (hended hsubject).settled hsubject
  · refine (h.idle id ?_).undisturbed (hothers id hsubject)
    intro hbusy
    obtain ⟨task', htask', hid⟩ := hbusy
    obtain ⟨other, hother⟩ := List.mem_iff_getElem?.mp htask'
    by_cases hsame : other = number
    · rw [hsame, htask] at hother
      cases hother
      unfold MountTask.subject? at hid
      rw [hcalls] at hid
      exact hsubject hid
    · exact hfree other task' hsame hother hid

theorem Statuses.progressed (h : daemon.Statuses stale)
    (htask : daemon.tasks[number]? = some task) (hcalls : task.calls = call :: rest)
    (hothers : ∀ id, call.subject? ≠ some id → Undisturbed daemon.shared progress.manager id)
    (hproceeds : Proceeds stale daemon.shared call progress) (hbefore : daemon.Exclusive)
    (hafter : (daemon.progressed number task rest progress).Exclusive) :
    (daemon.progressed number task rest progress).Statuses stale := by
  have hnumber := (List.getElem?_eq_some_iff.mp htask).1
  have hself : (daemon.progressed number task rest progress).tasks[number]? =
      some ⟨progress.calls ++ rest, task.results ++ progress.results⟩ :=
    List.getElem?_set_self hnumber
  have hkept : ∀ (other : ℕ) task', other ≠ number → daemon.tasks[other]? = some task' →
      (daemon.progressed number task rest progress).tasks[other]? = some task' := by
    intro other task' hother htask'
    exact (List.getElem?_set_ne (Ne.symm hother)).trans htask'
  have hsubject : task.subject? = call.subject? := by
    unfold MountTask.subject?
    rw [hcalls]
    rfl
  have hfollows : (call :: rest).IsChain Call.Follows := by
    rw [← hcalls]
    exact h.follows task (List.mem_of_getElem? htask)
  -- a call that comes first now has its mount for itself
  have hinitial : ∀ next : Call, (progress.calls ++ rest).head? = some next → next.Initial →
      (call.subject? ≠ none → call.Ended stale progress.manager) →
        next.At stale progress.manager := by
    intro next hnext hinitial hended
    obtain ⟨id, hid, hat⟩ := @Call.Initial.at stale progress.manager next hinitial
    refine hat (h.settled_progressed htask hcalls hothers ?_ (fun heq => hended ?_))
    · intro other task' hother htask' hbusy
      refine hother (hafter.eq_of_subject? (hkept other task' hother htask') hself hbusy ?_)
      unfold MountTask.subject?
      rw [hnext]
      exact hid
    · simp [heq]
  constructor
  · intro id hidle
    refine h.settled_progressed htask hcalls hothers ?_ ?_
    · intro other task' hother htask' hbusy
      exact hidle ⟨task', List.mem_of_getElem? (hkept other task' hother htask'), hbusy⟩
    · intro hid
      cases hproceeds with
      | ended _ hended => exact hended
      | goesOn next hnext _ hnextId _ =>
          refine absurd ⟨_, List.mem_of_getElem? hself, ?_⟩ hidle
          unfold MountTask.subject?
          rw [hnext]
          exact hnextId.trans hid
      | lists hnone _ _ =>
          rw [hnone] at hid
          contradiction
  · intro other hother current hcurrent
    obtain ⟨place, hplace⟩ := List.mem_iff_getElem?.mp hother
    by_cases hsame : place = number
    · rw [hsame, hself] at hplace
      cases hplace
      cases hproceeds with
      | ended hnil hended =>
          cases hrest : rest with
          | nil =>
              rw [hnil, hrest] at hcurrent
              contradiction
          | cons after rest' =>
              rw [hrest] at hfollows
              have hhead : (progress.calls ++ rest).head? = some after := by
                rw [hnil, hrest]
                rfl
              dsimp only at hcurrent
              rw [hhead] at hcurrent
              cases hcurrent
              obtain ⟨hafterCall, -⟩ := List.isChain_cons_cons.mp hfollows
              rcases hafterCall with hini | ⟨id, point, rfl, rfl⟩ | ⟨id, rfl, rfl⟩
              · exact hinitial _ hhead hini (fun _ => hended)
              · exact hended
              · exact hended
      | goesOn next hnext hhere _ _ =>
          rw [hnext] at hcurrent
          cases hcurrent
          exact hhere
      | lists hnone _ hall =>
          refine hinitial current hcurrent ?_ (fun hsome => absurd hnone hsome)
          cases hfirst : progress.calls with
          | nil =>
              cases hrest : rest with
              | nil =>
                  rw [hfirst, hrest] at hcurrent
                  contradiction
              | cons after rest' =>
                  rw [hrest] at hfollows
                  rw [hfirst, hrest] at hcurrent
                  cases hcurrent
                  exact initial_of_subject? hnone (List.isChain_cons_cons.mp hfollows).1
          | cons first others =>
              rw [hfirst] at hcurrent hall
              cases hcurrent
              exact hall current List.mem_cons_self
    · have hold : daemon.tasks[place]? = some other :=
        (List.getElem?_set_ne (Ne.symm hsame)).symm.trans hplace
      refine (h.here other (List.mem_of_getElem? hold) current hcurrent).undisturbed ?_
      intro id hid
      apply hothers
      intro heq
      refine hsame (hbefore.eq_of_subject? hold htask ?_ (hsubject.trans heq))
      unfold MountTask.subject?
      rw [Option.mem_def.mp hcurrent]
      exact hid
  · intro other hother
    rcases List.mem_or_eq_of_mem_set hother with hold | rfl
    · exact h.follows other hold
    · exact isChain_progressed hproceeds hfollows

end

/-- A step in which no query fails, from and to a state with one request for each mount. -/
theorem Statuses.step {stale : Uuid → Prop} {daemon : MountDaemon} (h : daemon.Statuses stale)
    {action : Action} (hquery : action.QuerySucceeds) (hbefore : daemon.Exclusive)
    (hafter : (daemon.step action).Exclusive) : (daemon.step action).Statuses stale := by
  cases action with
  | request request => exact h.request request hafter
  | turn number outside =>
      rcases daemon.turn_cases number outside with hsame | ⟨task, call, rest, htask, hcalls, hstep⟩
      · rw [hsame]
        exact h
      · rw [hstep] at hafter ⊢
        have hhere := h.here task (List.mem_of_getElem? htask) call (by rw [hcalls]; rfl)
        exact h.progressed htask hcalls (fun id hid => undisturbed_turn hid)
          (proceeds_turn hquery hhere) hbefore hafter

/-- Requests for different mounts in any order of their turns, with no query that fails: a
mount that no request is working on is running when its row says so, unless the row was
left behind by an earlier daemon and the mount has not been started since; and the row of a
mount that is running says so, or has the error of a start that came too late. -/
theorem status_tells_what_runs (table : FuseMounts) (actions : List Action)
    (h : AlongRun step (fun daemon action => action.QuerySucceeds ∧
      (daemon.step action).Exclusive) (boot table) actions) (id : Uuid)
    (hidle : ¬ ((boot table).run actions).Busy id) :
    let manager := ((boot table).run actions).shared
    (manager.statusOf id = some .running → manager.running id = true ∨
      (Stale table id ∧ manager.mounts.get? id = none)) ∧
    (manager.running id = true →
      manager.statusOf id = some .running ∨ manager.statusOf id = some .error) ∧
    ((manager.mounts.get? id).isSome = true → (manager.table.get id).isSome = true) := by
  have hboot : (boot table).Statuses (Stale table) ∧ (boot table).Exclusive := by
    exact ⟨statuses_boot table, List.nodup_nil⟩
  have hrun := @AlongRun.invariant _ _ step _
    (fun daemon => daemon.Statuses (Stale table) ∧ daemon.Exclusive)
    (fun daemon action hinv hallowed =>
      ⟨hinv.1.step hallowed.1 hinv.2 hallowed.2, hallowed.2⟩) _ hboot actions h
  have hsettled := hrun.1.idle id hidle
  refine ⟨hsettled.running, hsettled.live, fun hlisted => ?_⟩
  have hsome := hsettled.listed hlisted
  unfold statusOf at hsome
  rwa [Option.isSome_map] at hsome

end MountDaemon

namespace Reference

/-- Two requests for one mount: the stop comes to its end before the start writes its status,
and the row of the mount says that it is running when it is not. -/
example :
    let manager := ((MountDaemon.boot oneMount).run
      (startsMount.take 6 ++ .request (.stop ⟨1⟩) :: List.replicate 4 (.turn 1 goesWell) ++
        [.turn 0 goesWell])).shared
    manager.statusOf ⟨1⟩ = some .running ∧ manager.running ⟨1⟩ = false := by
  decide +kernel

theorem startsMount_allowed : AlongRun MountDaemon.step (fun daemon action =>
    action.QuerySucceeds ∧ (daemon.step action).Exclusive) (MountDaemon.boot oneMount)
      startsMount := by
  decide +kernel

theorem startsMount_tells :
    let manager := ((MountDaemon.boot oneMount).run startsMount).shared
    (manager.statusOf ⟨1⟩ = some .running → manager.running ⟨1⟩ = true ∨
      (MountDaemon.Stale oneMount ⟨1⟩ ∧ manager.mounts.get? ⟨1⟩ = none)) ∧
    (manager.running ⟨1⟩ = true →
      manager.statusOf ⟨1⟩ = some .running ∨ manager.statusOf ⟨1⟩ = some .error) ∧
    ((manager.mounts.get? ⟨1⟩).isSome = true → (manager.table.get ⟨1⟩).isSome = true) := by
  refine MountDaemon.status_tells_what_runs oneMount startsMount startsMount_allowed ⟨1⟩ ?_
  intro hbusy
  obtain ⟨task, htask, hsubject⟩ := hbusy
  unfold MountTask.subject? at hsubject
  rw [startsMount_ended task htask] at hsubject
  contradiction

end Reference

end JaxFs

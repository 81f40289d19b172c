import JaxFs.ObjectStore

/-!
# Calls on one hash

The bytes and the row of a hash are written by separate steps, and nothing keeps the calls
on it apart.  So the bytes are what the last step on them has left, the row is what the
last step on it has left, and the two agree when these steps belong to calls of one kind.
-/

namespace JaxFs

namespace ObjectStore

/-- There is a complete row exactly when there are bytes. -/
def Consistent (store : BlobStore) (hash : Hash) : Prop :=
  store.hasBlob hash = true ↔ (store.getData hash).isSome = true

section

variable (hashOf : Bytes → Hash) (hash : Hash)

/-- The bytes of the hash are written, or deleted. -/
def Step.onBytes : Step → Option Bool
  | .putData data => if hashOf data = hash then some true else none
  | .deleteData other _ => if other = hash then some false else none
  | _ => none

/-- The row of the hash is written, or deleted. -/
def Step.onRow : Step → Option Bool
  | .insertBlob data => if hashOf data = hash then some true else none
  | .deleteBlob other => if other = hash then some false else none
  | _ => none

/-- The step that takes effect in a turn. -/
def Calls.taken (calls : Calls) (turn : Turn) : Option Step :=
  match calls.tasks[turn.number]? with
  | some (.next step) => if turn.fate = .refused then none else some step
  | _ => none

/-- The steps that take effect in a run, in order. -/
def Calls.steps (calls : Calls) : List Turn → List Step
  | [] => []
  | turn :: rest => (calls.taken turn).toList ++ Calls.steps (calls.turn hashOf turn) rest

/-- What the last step of a kind has left of what there was. -/
def left (kind : Step → Option Bool) (steps : List Step) (before : Bool) : Bool :=
  ((steps.filterMap kind).getLast?).getD before

end

section

variable {hashOf : Bytes → Hash} {hash : Hash}

theorem left_cons (kind : Step → Option Bool) (step : Step) (steps : List Step)
    (before : Bool) :
    left kind (step :: steps) before = left kind steps ((kind step).getD before) := by
  unfold left
  rw [List.filterMap_cons]
  cases hkind : kind step with
  | none => rfl
  | some written =>
      rw [List.getLast?_cons]
      rfl

/-- A turn is the effect of the step that it takes. -/
theorem Calls.shared_turn (calls : Calls) (turn : Turn) :
    (calls.turn hashOf turn).shared =
      match calls.taken turn with
      | none => calls.shared
      | some step => step.effect hashOf turn.now calls.shared := by
  unfold Calls.turn Calls.taken
  cases htask : calls.tasks[turn.number]? with
  | none => rw [Interleaved.turn_of_none htask]
  | some call =>
      rw [Interleaved.turn_of_some htask]
      cases call with
      | returned result => rfl
      | next step => cases hfate : turn.fate <;> simp [Call.move]

/-- What can be seen of a hash after a run, when each step sets it or leaves it. -/
theorem Calls.seen_run {seen : BlobStore → Bool} {kind : Step → Option Bool}
    (hseen : ∀ now store step, seen (Step.effect hashOf now store step) =
      (kind step).getD (seen store)) (turns : List Turn) (calls : Calls) :
    seen (calls.run hashOf turns).shared =
      left kind (calls.steps hashOf turns) (seen calls.shared) := by
  induction turns generalizing calls with
  | nil => rfl
  | cons turn rest ih =>
      have hrest := ih (calls.turn hashOf turn)
      rw [Calls.shared_turn] at hrest
      unfold Calls.steps
      cases htaken : calls.taken turn with
      | none =>
          rw [htaken] at hrest
          exact hrest
      | some step =>
          rw [htaken] at hrest
          dsimp only at hrest
          rw [hseen] at hrest
          rw [Option.toList_some, List.singleton_append, left_cons]
          exact hrest

theorem Calls.bytes_run (turns : List Turn) (calls : Calls) :
    ((calls.run hashOf turns).shared.getData hash).isSome =
      left (Step.onBytes hashOf hash) (calls.steps hashOf turns)
        (calls.shared.getData hash).isSome := by
  have hseen : ∀ now store step, ((Step.effect hashOf now store step).getData hash).isSome =
      (Step.onBytes hashOf hash step).getD (store.getData hash).isSome := by
    intro now store step
    rw [Step.getData_effect]
    cases step with
    | putData data =>
        simp only [Step.onBytes]
        split_ifs <;> rfl
    | deleteData other hasOutboard =>
        simp only [Step.onBytes]
        split_ifs <;> rfl
    | _ => rfl
  exact @Calls.seen_run hashOf (fun store => (store.getData hash).isSome) _ hseen turns calls

theorem Calls.row_run (turns : List Turn) (calls : Calls) :
    (calls.run hashOf turns).shared.hasBlob hash =
      left (Step.onRow hashOf hash) (calls.steps hashOf turns)
        (calls.shared.hasBlob hash) := by
  have hseen : ∀ now store step, (Step.effect hashOf now store step).hasBlob hash =
      (Step.onRow hashOf hash step).getD (store.hasBlob hash) := by
    intro now store step
    rw [Step.hasBlob_effect]
    cases step with
    | insertBlob data =>
        simp only [Step.onRow]
        split_ifs <;> rfl
    | deleteBlob other =>
        simp only [Step.onRow]
        split_ifs <;> rfl
    | _ => rfl
  exact @Calls.seen_run hashOf (fun store => store.hasBlob hash) _ hseen turns calls

/-- From a consistent store, a run of any calls ends in a consistent one exactly when its
last step on the bytes and its last step on the row both write or both delete. -/
theorem consistent_iff_last_steps_agree {calls : Calls} (hstart : Consistent calls.shared hash)
    (turns : List Turn) :
    Consistent (calls.run hashOf turns).shared hash ↔
      left (Step.onBytes hashOf hash) (calls.steps hashOf turns)
          (calls.shared.hasBlob hash) =
        left (Step.onRow hashOf hash) (calls.steps hashOf turns)
          (calls.shared.hasBlob hash) := by
  unfold Consistent at hstart ⊢
  have hsame : (calls.shared.getData hash).isSome = calls.shared.hasBlob hash :=
    Bool.eq_iff_iff.mpr hstart.symm
  rw [Calls.row_run, Calls.bytes_run, hsame, ← Bool.eq_iff_iff, eq_comm]

def raceHash : Hash := ⟨[1]⟩

def racingCalls : Calls := ⟨BlobStore.empty, [.put [1], .delete raceHash, .put [1]]⟩

def wellAt (number : ℕ) : Turn := ⟨number, .well, 0⟩

theorem put_then_delete_consistent :
    Consistent (racingCalls.run Hash.mk ([0, 0, 2, 2, 1, 1, 1].map wellAt)).shared raceHash :=
  (consistent_iff_last_steps_agree (by unfold Consistent; decide) _).mpr (by decide +kernel)

/-- The second put has written its bytes when the delete removes them, and its row when
the delete is over. -/
def rowOutlives : List Turn := [0, 0, 1, 2, 1, 1, 2].map wellAt

/-- The second put is over when the delete removes the row, after it has removed the bytes. -/
def bytesOutlive : List Turn := [0, 0, 1, 1, 2, 2, 1].map wellAt

theorem put_between_delete_steps :
    (∃ run : Calls, run = racingCalls.run Hash.mk rowOutlives ∧
      run.tasks = [.returned (.ok (.stored raceHash)), .returned (.ok (.deleted true)),
        .returned (.ok (.stored raceHash))] ∧
      run.shared.listBlobs = [raceHash] ∧ run.shared.get raceHash = none ∧
      ¬ Consistent run.shared raceHash) ∧
    ∃ run : Calls, run = racingCalls.run Hash.mk bytesOutlive ∧
      run.tasks = [.returned (.ok (.stored raceHash)), .returned (.ok (.deleted true)),
        .returned (.ok (.stored raceHash))] ∧
      run.shared.listBlobs = [] ∧ run.shared.getData raceHash = some [1] ∧
      ¬ Consistent run.shared raceHash := by
  unfold Consistent
  exact ⟨⟨_, rfl, by decide +kernel⟩, ⟨_, rfl, by decide +kernel⟩⟩

/-- The listing, the status and `get` agree on a consistent store. -/
theorem Consistent.mem_listBlobs_iff {store : BlobStore} (h : Consistent store hash) :
    hash ∈ store.listBlobs ↔ (store.get hash).isSome = true := by
  rw [BlobStore.mem_listBlobs_iff]
  unfold BlobStore.get
  split_ifs with hrow
  · exact h
  · simp [hrow]

end

/-! ## Calls kept apart -/

section

variable (hashOf : Bytes → Hash) (hash : Hash)

/-- The call has written the bytes of the hash, and not yet the row. -/
def Call.Writing : Call → Prop
  | .next (.insertBlob data) => hashOf data = hash
  | _ => False

/-- The call has deleted the bytes of the hash, and not yet the row. -/
def Call.Deleting : Call → Prop
  | .next (.deleteOutboard other) => other = hash
  | .next (.deleteBlob other) => other = hash
  | _ => False

/-- No bytes are written while a delete is at its steps, nor deleted while a put is, and
no step fails. -/
def KeepsApart (calls : Calls) (turn : Turn) : Prop :=
  turn.fate = .well ∧ ∀ step, calls.tasks[turn.number]? = some (.next step) →
    (step.onBytes hashOf hash = some true → ∀ call ∈ calls.tasks, ¬ call.Deleting hash) ∧
    (step.onBytes hashOf hash = some false → ∀ call ∈ calls.tasks, ¬ call.Writing hashOf hash)

/-- The calls at their steps, and what they have made of the bytes. -/
structure Sections (calls : Calls) : Prop where
  writing : ∀ call ∈ calls.tasks, call.Writing hashOf hash →
    (calls.shared.getData hash).isSome = true ∧ ∀ other ∈ calls.tasks, ¬ other.Deleting hash
  deleting : ∀ call ∈ calls.tasks, call.Deleting hash → calls.shared.getData hash = none
  idle : (∀ call ∈ calls.tasks, ¬ call.Writing hashOf hash ∧ ¬ call.Deleting hash) →
    Consistent calls.shared hash

end

section

variable {hashOf : Bytes → Hash} {hash : Hash}

/-- A turn that leaves the bytes, of a call that is then at no step of the hash. -/
theorem Sections.kept {calls : Calls} (h : Sections hashOf hash calls) {number : ℕ}
    {call' : Call} {shared : BlobStore}
    (hbytes : shared.getData hash = calls.shared.getData hash)
    (hcall' : ¬ call'.Writing hashOf hash ∧ ¬ call'.Deleting hash)
    (hidle : (∀ other ∈ calls.tasks.set number call',
      ¬ other.Writing hashOf hash ∧ ¬ other.Deleting hash) → Consistent shared hash) :
    Sections hashOf hash ⟨shared, calls.tasks.set number call'⟩ := by
  constructor
  · intro other hother hwriting
    rcases List.mem_or_eq_of_mem_set hother with hmem | rfl
    · obtain ⟨hsome, hnone⟩ := h.writing other hmem hwriting
      constructor
      · rw [← hbytes] at hsome
        exact hsome
      · intro third hthird
        rcases List.mem_or_eq_of_mem_set hthird with hmem' | rfl
        · exact hnone third hmem'
        · exact hcall'.2
    · exact absurd hwriting hcall'.1
  · intro other hother hdeleting
    rcases List.mem_or_eq_of_mem_set hother with hmem | rfl
    · exact hbytes.trans (h.deleting other hmem hdeleting)
    · exact absurd hdeleting hcall'.2
  · exact hidle

/-- A turn of a call that is at no step of the hash, before and after. -/
theorem Sections.elsewhere {calls : Calls} (h : Sections hashOf hash calls) {number : ℕ}
    {call call' : Call} {shared : BlobStore} (htask : calls.tasks[number]? = some call)
    (hbytes : shared.getData hash = calls.shared.getData hash)
    (hrow : shared.hasBlob hash = calls.shared.hasBlob hash)
    (hcall : ¬ call.Writing hashOf hash ∧ ¬ call.Deleting hash)
    (hcall' : ¬ call'.Writing hashOf hash ∧ ¬ call'.Deleting hash) :
    Sections hashOf hash ⟨shared, calls.tasks.set number call'⟩ := by
  apply h.kept hbytes hcall'
  intro hall
  have hbefore : ∀ other ∈ calls.tasks,
      ¬ other.Writing hashOf hash ∧ ¬ other.Deleting hash := by
    intro other hother
    obtain ⟨place, hplace⟩ := List.mem_iff_getElem?.mp hother
    by_cases hsame : number = place
    · subst hsame
      rw [htask] at hplace
      cases hplace
      exact hcall
    · apply hall other
      apply List.mem_iff_getElem?.mpr
      refine ⟨place, ?_⟩
      rw [List.getElem?_set_ne hsame]
      exact hplace
  have hidle := h.idle hbefore
  unfold Consistent at hidle ⊢
  rw [hbytes, hrow]
  exact hidle

/-- A put has written the bytes, while no call was deleting. -/
theorem Sections.written {calls : Calls} {number : ℕ} {call call' : Call} {shared : BlobStore}
    (htask : calls.tasks[number]? = some call)
    (hbytes : (shared.getData hash).isSome = true)
    (hnone : ∀ other ∈ calls.tasks, ¬ other.Deleting hash)
    (hcall' : call'.Writing hashOf hash) (hnot : ¬ call'.Deleting hash) :
    Sections hashOf hash ⟨shared, calls.tasks.set number call'⟩ := by
  have hnone' : ∀ other ∈ calls.tasks.set number call', ¬ other.Deleting hash := by
    intro other hother
    rcases List.mem_or_eq_of_mem_set hother with hmem | rfl
    · exact hnone other hmem
    · exact hnot
  have hmem' : call' ∈ calls.tasks.set number call' :=
    List.mem_set (List.getElem?_eq_some_iff.mp htask).1 call'
  exact
    { writing := fun _ _ _ => ⟨hbytes, hnone'⟩
      deleting := fun other hother hdeleting => absurd hdeleting (hnone' other hother)
      idle := fun hall => absurd hcall' (hall call' hmem').1 }

/-- A delete has deleted the bytes, or found them deleted, while no call was writing. -/
theorem Sections.removed {calls : Calls} {number : ℕ} {call call' : Call} {shared : BlobStore}
    (htask : calls.tasks[number]? = some call)
    (hbytes : shared.getData hash = none)
    (hnone : ∀ other ∈ calls.tasks, ¬ other.Writing hashOf hash)
    (hcall' : call'.Deleting hash) (hnot : ¬ call'.Writing hashOf hash) :
    Sections hashOf hash ⟨shared, calls.tasks.set number call'⟩ := by
  have hmem' : call' ∈ calls.tasks.set number call' :=
    List.mem_set (List.getElem?_eq_some_iff.mp htask).1 call'
  constructor
  · intro other hother hwriting
    rcases List.mem_or_eq_of_mem_set hother with hmem | rfl
    · exact absurd hwriting (hnone other hmem)
    · exact absurd hwriting hnot
  · exact fun _ _ _ => hbytes
  · exact fun hall => absurd hcall' (hall call' hmem').2

/-- A call that deletes keeps the others from writing. -/
theorem Sections.no_writing {calls : Calls} (h : Sections hashOf hash calls) {call : Call}
    (hcall : call ∈ calls.tasks) (hdeleting : call.Deleting hash) :
    ∀ other ∈ calls.tasks, ¬ other.Writing hashOf hash :=
  fun other hother hwriting => (h.writing other hother hwriting).2 call hcall hdeleting

theorem Sections.turn {calls : Calls} (h : Sections hashOf hash calls) {turn : Turn}
    (hapart : KeepsApart hashOf hash calls turn) :
    Sections hashOf hash (calls.turn hashOf turn) := by
  obtain ⟨hwell, hapart⟩ := hapart
  unfold Calls.turn
  cases htask : calls.tasks[turn.number]? with
  | none =>
      rw [Interleaved.turn_of_none htask]
      exact h
  | some call =>
      rw [Interleaved.turn_of_some htask, hwell]
      have hmem : call ∈ calls.tasks := List.mem_iff_getElem?.mpr ⟨_, htask⟩
      cases call with
      | returned result => exact h.elsewhere htask rfl rfl ⟨id, id⟩ ⟨id, id⟩
      | next step =>
          obtain ⟨hput, hdelete⟩ := hapart step htask
          cases step with
          | putData data =>
              by_cases hsame : hashOf data = hash
              · have hbytes : (((Step.putData data).effect hashOf turn.now
                    calls.shared).getData hash).isSome = true := by
                  rw [Step.getData_effect]
                  simp [hsame]
                exact Sections.written htask hbytes (hput (if_pos hsame)) hsame id
              · have hbytes := Step.getData_effect hashOf hash calls.shared turn.now (.putData data)
                exact h.elsewhere htask (hbytes.trans (if_neg hsame)) rfl ⟨id, id⟩ ⟨hsame, id⟩
          | insertBlob data =>
              have hrow := Step.hasBlob_effect hashOf hash calls.shared turn.now (.insertBlob data)
              by_cases hsame : hashOf data = hash
              · obtain ⟨hbytes, _⟩ := h.writing _ hmem hsame
                have hafter : Consistent ((Step.insertBlob data).effect hashOf turn.now
                    calls.shared) hash := ⟨fun _ => hbytes, fun _ => hrow.trans (if_pos hsame)⟩
                exact h.kept rfl ⟨id, id⟩ (fun _ => hafter)
              · exact h.elsewhere htask rfl (hrow.trans (if_neg hsame)) ⟨hsame, id⟩ ⟨id, id⟩
          | hasBlob other =>
              have hnext : ¬ ((Step.hasBlob other).following hashOf calls.shared).Writing
                  hashOf hash ∧
                  ¬ ((Step.hasBlob other).following hashOf calls.shared).Deleting hash := by
                unfold Step.following
                dsimp only
                split_ifs <;> exact ⟨id, id⟩
              exact h.elsewhere htask rfl rfl ⟨id, id⟩ hnext
          | getData other => exact h.elsewhere htask rfl rfl ⟨id, id⟩ ⟨id, id⟩
          | getBlob other =>
              have hnext : ¬ ((Step.getBlob other).following hashOf calls.shared).Writing
                  hashOf hash ∧
                  ¬ ((Step.getBlob other).following hashOf calls.shared).Deleting hash := by
                unfold Step.following
                dsimp only
                split <;> exact ⟨id, id⟩
              exact h.elsewhere htask rfl rfl ⟨id, id⟩ hnext
          | deleteData other hasOutboard =>
              have hbytes := Step.getData_effect hashOf hash calls.shared turn.now
                (.deleteData other hasOutboard)
              have hwriting : ¬ ((Step.deleteData other hasOutboard).following hashOf
                  calls.shared).Writing hashOf hash := by
                cases hasOutboard <;> exact id
              by_cases hsame : other = hash
              · have hdeleting : ((Step.deleteData other hasOutboard).following hashOf
                    calls.shared).Deleting hash := by
                  cases hasOutboard <;> exact hsame
                exact Sections.removed htask (hbytes.trans (if_pos hsame))
                  (hdelete (if_pos hsame)) hdeleting hwriting
              · have hdeleting : ¬ ((Step.deleteData other hasOutboard).following hashOf
                    calls.shared).Deleting hash := by
                  cases hasOutboard <;> exact hsame
                exact h.elsewhere htask (hbytes.trans (if_neg hsame)) rfl ⟨id, id⟩
                  ⟨hwriting, hdeleting⟩
          | deleteOutboard other =>
              by_cases hsame : other = hash
              · exact Sections.removed htask (h.deleting _ hmem hsame)
                  (h.no_writing hmem hsame) hsame id
              · exact h.elsewhere htask rfl rfl ⟨id, hsame⟩ ⟨id, hsame⟩
          | deleteBlob other =>
              have hrow := Step.hasBlob_effect hashOf hash calls.shared turn.now (.deleteBlob other)
              by_cases hsame : other = hash
              · have hnone : ((Step.deleteBlob other).effect hashOf turn.now
                    calls.shared).getData hash = none := h.deleting _ hmem hsame
                have hafter : Consistent ((Step.deleteBlob other).effect hashOf turn.now
                    calls.shared) hash := by
                  unfold Consistent
                  rw [hrow, hnone]
                  simp [hsame]
                exact h.kept rfl ⟨id, id⟩ (fun _ => hafter)
              · exact h.elsewhere htask rfl (hrow.trans (if_neg hsame)) ⟨id, hsame⟩ ⟨id, id⟩

/-- Calls that have not begun, on a consistent store. -/
theorem Sections.start {calls : Calls} (hstart : Consistent calls.shared hash)
    (hcalls : ∀ call ∈ calls.tasks, ¬ call.Writing hashOf hash ∧ ¬ call.Deleting hash) :
    Sections hashOf hash calls where
  writing := fun call hcall hwriting => absurd hwriting (hcalls call hcall).1
  deleting := fun call hcall hdeleting => absurd hdeleting (hcalls call hcall).2
  idle := fun _ => hstart

/-- Calls whose steps on the hash are kept apart leave it consistent once all of them have
returned. -/
theorem consistent_of_kept_apart {calls : Calls} (hstart : Consistent calls.shared hash)
    (hcalls : ∀ call ∈ calls.tasks, ¬ call.Writing hashOf hash ∧ ¬ call.Deleting hash)
    {turns : List Turn}
    (hapart : AlongRun (Calls.turn hashOf) (KeepsApart hashOf hash) calls turns)
    (hdone : ∀ call ∈ (calls.run hashOf turns).tasks, ∃ result, call = .returned result) :
    Consistent (calls.run hashOf turns).shared hash := by
  have hturn : ∀ (state : Calls) (turn : Turn), Sections hashOf hash state →
      KeepsApart hashOf hash state turn → Sections hashOf hash (state.turn hashOf turn) :=
    fun _ _ h => Sections.turn h
  have hsections : Sections hashOf hash (calls.run hashOf turns) :=
    AlongRun.invariant hturn (Sections.start hstart hcalls) hapart
  apply hsections.idle
  intro call hcall
  obtain ⟨result, rfl⟩ := hdone call hcall
  exact ⟨id, id⟩

end

end ObjectStore

end JaxFs

import JaxFs.ObjectStore

/-!
# The actor of the object store

`ObjectStoreActor` turns commands into tasks over one `BlobStore`.  Data comes in whole, in
the order of a stream, or in leaves that say themselves where they belong.  Blobs are only
ever stored under the hash of their bytes, whatever the commands are and however their
tasks take turns.
-/

namespace JaxFs

namespace ObjectStore

/-! ## Commands -/

inductive ImportByteStreamUpdate where
  | bytes (data : Bytes)
  | done

/-- A hash of a chunk is 32 bytes. -/
abbrev ChunkHash := { bytes : Bytes // bytes.length = 32 }

inductive BaoContentItem where
  | parent (node : ℕ) (left right : ChunkHash)
  | leaf (offset : ℕ) (data : Bytes)

/-- The commands that go to the store.  `ImportPath` reads its file as a stream, and `get`
stands for `BlobStatus` and the exports, which all start with `BlobStore::get`. -/
inductive Command where
  | importBytes (data : Bytes)
  | importByteStream (updates : List ImportByteStreamUpdate)
  | importBao (hash : Hash) (size : ℕ) (items : List BaoContentItem)
  | deleteBlobs (hashes : List Hash) (force : Bool)
  | get (hash : Hash)

inductive ImportBaoError where
  | tooLarge
  | hashMismatch
  | storage
  deriving DecidableEq

inductive Reply where
  | added (hash : Hash)
  | notAdded
  | importedBao (result : Except ImportBaoError Unit)
  | deleted
  | got (hash : Hash) (data : Option Bytes)
  | getFailed
  | panicked
  deriving DecidableEq

/-! ## Reassembly -/

/-- The bytes that arrive before the stream is done; a stream that only ends is an error. -/
def receiveByteStream : List ImportByteStreamUpdate → Option Bytes
  | [] => none
  | .bytes data :: rest => (receiveByteStream rest).map (data ++ ·)
  | .done :: _ => some []

/-- `copy_from_slice` into a buffer, when the end is inside.  Indices are 64 bits wide and
their sum wraps; an end before the start panics. -/
def copyInto (buffer : Bytes) (start : ℕ) (bytes : Bytes) : Option Bytes :=
  let stop := (start + bytes.length) % 2 ^ 64
  if stop ≤ buffer.length then
    if start ≤ stop then some (buffer.take start ++ bytes ++ buffer.drop stop) else none
  else some buffer

/-- 1 GB. -/
def maxImportSize : ℕ := 1024 * 1024 * 1024

/-- The data of an import, and the outboard, which nothing reads. -/
structure BaoBuffers where
  data : Bytes
  outboard : Bytes

def BaoBuffers.new (size : ℕ) : BaoBuffers :=
  let chunks := (size + (1024 * 16 - 1)) / (1024 * 16)
  ⟨List.replicate size 0, List.replicate (if 1 < chunks then (chunks - 1) * 64 else 0) 0⟩

section

variable (preOrderOffset : ℕ → ℕ → Option ℕ)

def BaoBuffers.receive (size : ℕ) (buffers : BaoBuffers) : BaoContentItem → Option BaoBuffers
  | .parent node left right =>
      match preOrderOffset size node with
      | none => some buffers
      | some offset =>
          (copyInto buffers.outboard (offset * 64 % 2 ^ 64) (left.val ++ right.val)).map
            (fun outboard => { buffers with outboard := outboard })
  | .leaf offset data =>
      (copyInto buffers.data offset data).map (fun data => { buffers with data := data })

/-- The items of an import in the order in which they come. -/
def reassemble (size : ℕ) (items : List BaoContentItem) : Option Bytes :=
  (items.foldlM (BaoBuffers.receive preOrderOffset size) (BaoBuffers.new size)).map
    BaoBuffers.data

end

example : reassemble (fun _ _ => none) 5 [.leaf 2 [3, 4], .leaf 4 [9, 9], .leaf 0 [1, 2]] =
    some [1, 2, 3, 4, 0] := by decide

/-! ## Tasks -/

/-- What a task does with the result of its call. -/
inductive Job where
  | finishImport
  | importBao
  | deleteBlobs (rest : List Hash)
  | get

/-- A task has its command, or waits for a call on the store, or has replied. -/
inductive Task where
  | received (command : Command)
  | storing (job : Job) (call : Call)
  | replied (reply : Reply)

/-- The deletes of a command follow one another. -/
def Task.deleteBlobs : List Hash → Task
  | [] => .replied .deleted
  | hash :: rest => .storing (.deleteBlobs rest) (.delete hash)

/-- A failed delete is only logged. -/
def Job.finish (result : Except Unit Answer) : Job → Task
  | .finishImport =>
      match result with
      | .ok (.stored hash) => .replied (.added hash)
      | _ => .replied .notAdded
  | .importBao =>
      match result with
      | .ok _ => .replied (.importedBao (.ok ()))
      | .error _ => .replied (.importedBao (.error .storage))
  | .deleteBlobs rest => .deleteBlobs rest
  | .get =>
      match result with
      | .ok (.found hash data) => .replied (.got hash data)
      | _ => .replied .getFailed

section

variable (hashOf : Bytes → Hash) (preOrderOffset : ℕ → ℕ → Option ℕ)

/-- The start of a task, up to its first call.  An import whose progress cannot be sent is
over. -/
def Command.begin (fate : Fate) : Command → Task
  | .importBytes data =>
      if fate = .well then .storing .finishImport (.put data) else .replied .notAdded
  | .importByteStream updates =>
      match receiveByteStream updates with
      | none => .replied .notAdded
      | some data => if fate = .well then .storing .finishImport (.put data) else .replied .notAdded
  | .importBao hash size items =>
      if maxImportSize < size then .replied (.importedBao (.error .tooLarge))
      else
        match reassemble preOrderOffset size items with
        | none => .replied .panicked
        | some data =>
            if hashOf data = hash then .storing .importBao (.put data)
            else .replied (.importedBao (.error .hashMismatch))
  | .deleteBlobs hashes _ => .deleteBlobs hashes
  | .get hash => .storing .get (.get hash)

/-- One step of a task. -/
def Task.move (fate : Fate) (now : ℤ) (store : BlobStore) : Task → BlobStore × Task
  | .received command => (store, command.begin hashOf preOrderOffset fate)
  | .storing job call =>
      match Call.move hashOf fate now store call with
      | (store', .returned result) => (store', job.finish result)
      | (store', call') => (store', .storing job call')
  | .replied reply => (store, .replied reply)

end

/-! ## The actor -/

structure Actor where
  protectedHashes : List Hash
  running : Interleaved BlobStore Task

def Actor.new (store : BlobStore) : Actor := ⟨[], ⟨store, []⟩⟩

/-- Deletes pass over the hashes that are protected when the task is spawned. -/
def Command.spawn (protectedHashes : List Hash) : Command → Command
  | .deleteBlobs hashes force =>
      .deleteBlobs (hashes.filter (fun hash => force || !protectedHashes.contains hash)) force
  | command => command

/-- Commands and the turns of their tasks come in any order.  After a restart only the
store is left. -/
inductive Event where
  | command (command : Command)
  | clearProtected
  | turn (turn : Turn)
  | restart

section

variable (hashOf : Bytes → Hash) (preOrderOffset : ℕ → ℕ → Option ℕ)

def Actor.step (actor : Actor) : Event → Actor
  | .command command =>
      { actor with running := ⟨actor.running.shared,
          actor.running.tasks ++ [.received (command.spawn actor.protectedHashes)]⟩ }
  | .clearProtected => { actor with protectedHashes := [] }
  | .turn turn =>
      { actor with running :=
          actor.running.turn (Task.move hashOf preOrderOffset turn.fate turn.now) turn.number }
  | .restart => Actor.new actor.running.shared

def Actor.run (actor : Actor) (events : List Event) : Actor :=
  events.foldl (Actor.step hashOf preOrderOffset) actor

end

/-! ## Content addressing -/

section

variable (hashOf : Bytes → Hash)

/-- Bytes are under their own hash. -/
def BlobStore.Addressed (store : BlobStore) : Prop :=
  ∀ hash data, store.getData hash = some data → hashOf data = hash

def Answer.Addressed (answer : Answer) : Prop :=
  ∀ hash data, answer = .found hash (some data) → hashOf data = hash

/-- What a task has read is the content of its hash. -/
def Task.Addressed : Task → Prop
  | .storing _ (.returned (.ok answer)) => answer.Addressed hashOf
  | .replied (.got hash (some data)) => hashOf data = hash
  | _ => True

end

section

variable {hashOf : Bytes → Hash} {preOrderOffset : ℕ → ℕ → Option ℕ}

theorem BlobStore.Addressed.hashOf_eq {store : BlobStore} (h : store.Addressed hashOf)
    {hash : Hash} {data : Bytes} (hdata : store.get hash = some data) : hashOf data = hash := by
  unfold BlobStore.get at hdata
  split_ifs at hdata
  exact h hash data hdata

theorem BlobStore.Addressed.effect {store : BlobStore} (h : store.Addressed hashOf) (now : ℤ)
    (step : Step) : (step.effect hashOf now store).Addressed hashOf := by
  intro hash data hdata
  rw [Step.getData_effect] at hdata
  cases step with
  | putData written =>
      dsimp only at hdata
      split_ifs at hdata with hsame
      · cases hdata
        exact hsame
      · exact h hash data hdata
  | deleteData other hasOutboard =>
      dsimp only at hdata
      split_ifs at hdata with hsame
      exact h hash data hdata
  | _ => exact h hash data hdata

/-- A call that ends here has read the store as it is. -/
theorem BlobStore.Addressed.following {store : BlobStore} (h : store.Addressed hashOf) {step : Step}
    {answer : Answer} (hend : step.following hashOf store = .returned (.ok answer)) :
    answer.Addressed hashOf := by
  intro hash data hanswer
  subst hanswer
  cases step with
  | getData other =>
      unfold Step.following at hend
      injection hend with hend
      injection hend with hend
      injection hend with hhash hdata
      subst hhash
      exact h other data hdata
  | hasBlob other =>
      unfold Step.following at hend
      dsimp only at hend
      split_ifs at hend
      cases hend
  | getBlob other =>
      unfold Step.following at hend
      dsimp only at hend
      split at hend
      · cases hend
      · cases hend
  | deleteData other hasOutboard => cases hasOutboard <;> cases hend
  | _ => cases hend

theorem BlobStore.Addressed.call {store : BlobStore} (h : store.Addressed hashOf) (fate : Fate)
    (now : ℤ) (step : Step) : (Call.move hashOf fate now store (.next step)).1.Addressed hashOf ∧
      ∀ answer, (Call.move hashOf fate now store (.next step)).2 = .returned (.ok answer) →
        answer.Addressed hashOf := by
  cases fate with
  | well => exact ⟨h.effect now step, fun _ hend => h.following hend⟩
  | refused => exact ⟨h, fun _ hend => nomatch hend⟩
  | lost => exact ⟨h.effect now step, fun _ hend => nomatch hend⟩

theorem Task.addressed_deleteBlobs (hashes : List Hash) :
    (Task.deleteBlobs hashes).Addressed hashOf := by
  cases hashes with
  | nil => trivial
  | cons hash rest => trivial

theorem Job.addressed_finish {result : Except Unit Answer}
    (h : ∀ answer, result = .ok answer → answer.Addressed hashOf) (job : Job) :
    (job.finish result).Addressed hashOf := by
  cases job with
  | finishImport =>
      unfold Job.finish
      dsimp only
      split
      · trivial
      · trivial
  | importBao => cases result <;> trivial
  | deleteBlobs rest => exact Task.addressed_deleteBlobs rest
  | get =>
      cases result with
      | error _ => trivial
      | ok answer =>
          cases answer with
          | found hash data =>
              cases data with
              | none => trivial
              | some data => exact h _ rfl hash data rfl
          | _ => trivial

theorem Command.addressed_begin (command : Command) (fate : Fate) :
    (command.begin hashOf preOrderOffset fate).Addressed hashOf := by
  cases command with
  | importBytes data =>
      unfold Command.begin
      split_ifs <;> trivial
  | importByteStream updates =>
      unfold Command.begin
      dsimp only
      cases receiveByteStream updates with
      | none => trivial
      | some data =>
          dsimp only
          split_ifs <;> trivial
  | importBao hash size items =>
      unfold Command.begin
      dsimp only
      by_cases hsize : maxImportSize < size
      · rw [if_pos hsize]
        trivial
      · rw [if_neg hsize]
        cases reassemble preOrderOffset size items with
        | none => trivial
        | some data =>
            dsimp only
            split_ifs <;> trivial
  | deleteBlobs hashes force => exact Task.addressed_deleteBlobs hashes
  | get hash => trivial

theorem Task.addressed_move (fate : Fate) (now : ℤ) (store : BlobStore) (task : Task)
    (hstore : store.Addressed hashOf) (htask : task.Addressed hashOf) :
    (task.move hashOf preOrderOffset fate now store).1.Addressed hashOf ∧
      (task.move hashOf preOrderOffset fate now store).2.Addressed hashOf := by
  cases task with
  | received command => exact ⟨hstore, command.addressed_begin fate⟩
  | replied reply => exact ⟨hstore, htask⟩
  | storing job call =>
      cases call with
      | returned result =>
          refine ⟨hstore, job.addressed_finish ?_⟩
          intro answer hanswer
          subst hanswer
          exact htask
      | next step =>
          obtain ⟨hstore', hanswers⟩ := hstore.call fate now step
          unfold Task.move
          dsimp only
          cases hmove : Call.move hashOf fate now store (.next step) with
          | mk store' call' =>
              rw [hmove] at hstore' hanswers
              cases call' with
              | next step' => exact ⟨hstore', trivial⟩
              | returned result =>
                  refine ⟨hstore', job.addressed_finish ?_⟩
                  intro answer hanswer
                  exact hanswers answer (congrArg Call.returned hanswer)

/-- The store holds bytes under their own hash, and the tasks have read them so. -/
def Actor.Addressed (hashOf : Bytes → Hash) (actor : Actor) : Prop :=
  actor.running.shared.Addressed hashOf ∧
    ∀ task ∈ actor.running.tasks, task.Addressed hashOf

theorem Actor.addressed_new : (Actor.new BlobStore.empty).Addressed hashOf := by
  constructor
  · intro hash data hdata
    cases hdata
  · intro task htask
    cases htask

theorem Actor.addressed_step {actor : Actor} (h : actor.Addressed hashOf) (event : Event) :
    (actor.step hashOf preOrderOffset event).Addressed hashOf := by
  obtain ⟨hstore, htasks⟩ := h
  cases event with
  | command command =>
      constructor
      · exact hstore
      · intro task htask
        rcases List.mem_append.mp htask with hbefore | hnew
        · exact htasks task hbefore
        · rw [List.mem_singleton.mp hnew]
          trivial
  | clearProtected => exact ⟨hstore, htasks⟩
  | turn turn =>
      exact Interleaved.forall_turn (Task.addressed_move turn.fate turn.now) hstore htasks
        turn.number
  | restart => exact ⟨hstore, fun _ htask => nomatch htask⟩

theorem Actor.addressed_run (preOrderOffset : ℕ → ℕ → Option ℕ)
    {actor : Actor} (h : actor.Addressed hashOf)
    (events : List Event) : (actor.run hashOf preOrderOffset events).Addressed hashOf := by
  induction events generalizing actor with
  | nil => exact h
  | cons event rest ih => exact ih (actor.addressed_step h event)

/-- An import whose bytes have another hash. -/
theorem Command.begin_importBao_mismatch {hash : Hash} {size : ℕ} {items : List BaoContentItem}
    {data : Bytes} (hdata : reassemble preOrderOffset size items = some data)
    (hne : hashOf data ≠ hash) (fate : Fate) :
    ∃ error, (Command.importBao hash size items).begin hashOf preOrderOffset fate =
      .replied (.importedBao (.error error)) := by
  unfold Command.begin
  dsimp only
  rw [hdata]
  dsimp only
  rw [if_neg hne]
  split_ifs with hsize
  · exact ⟨_, rfl⟩
  · exact ⟨_, rfl⟩

/-- Whatever commands the actor gets and in whatever order it works on them, a hash leads to
its own bytes, in the store and in every reply; and an import in leaves whose bytes have
another hash leaves the store and replies with an error. -/
theorem Actor.content_addressed (hashOf : Bytes → Hash) (preOrderOffset : ℕ → ℕ → Option ℕ)
    (events : List Event) :
    let actor := (Actor.new BlobStore.empty).run hashOf preOrderOffset events
    (∀ hash data, actor.running.shared.get hash = some data → hashOf data = hash) ∧
      (∀ hash data, .replied (.got hash (some data)) ∈ actor.running.tasks →
        hashOf data = hash) ∧
      ∀ turn hash size items data,
        actor.running.tasks[turn.number]? = some (.received (.importBao hash size items)) →
        reassemble preOrderOffset size items = some data → hashOf data ≠ hash →
        (actor.step hashOf preOrderOffset (.turn turn)).running.shared = actor.running.shared ∧
          ∃ error, (actor.step hashOf preOrderOffset (.turn turn)).running.tasks[turn.number]? =
            some (.replied (.importedBao (.error error))) := by
  intro actor
  obtain ⟨hstore, htasks⟩ := Actor.addressed_run preOrderOffset Actor.addressed_new events
  refine ⟨?_, ?_, ?_⟩
  · intro hash data hdata
    exact hstore.hashOf_eq hdata
  · intro hash data hreply
    exact htasks _ hreply
  · intro turn hash size items data htask hdata hne
    obtain ⟨error, hbegin⟩ := Command.begin_importBao_mismatch hdata hne turn.fate
    have hstep : (actor.step hashOf preOrderOffset (.turn turn)).running =
        ⟨actor.running.shared, actor.running.tasks.set turn.number
          (.replied (.importedBao (.error error)))⟩ := by
      change Interleaved.turn _ _ _ = _
      rw [Interleaved.turn_of_some htask]
      unfold Task.move
      dsimp only
      rw [hbegin]
    rw [hstep]
    refine ⟨rfl, error, ?_⟩
    exact List.getElem?_set_self (List.getElem?_eq_some_iff.mp htask).1

end

end ObjectStore

end JaxFs

import JaxFs.Interleaving
import JaxFs.KeyedMap
import JaxFs.LinkedData

/-!
# The object store

`BlobStore` of the object store crate: the bytes of a blob are in an object storage, and
a row about it in a table.  A call takes one step in one of the two at a time, and calls
run side by side.  A step may fail, and a failed step may still have taken effect.  The
hash is BLAKE3 and only has to be a function; keys are the hashes themselves, which their
strings determine.
-/

namespace JaxFs

namespace ObjectStore

inductive BlobState where
  | complete
  | partialUpload
  | deleting
  deriving DecidableEq

structure BlobMetadata where
  size : ℤ
  hasOutboard : Bool
  state : BlobState
  createdAt : ℤ
  updatedAt : ℤ
  deriving DecidableEq

/-- The table `blobs`, and the objects under `data/` and `outboard/`. -/
structure BlobStore where
  rows : FinMap Hash BlobMetadata
  data : FinMap Hash Bytes
  outboard : FinMap Hash Bytes

/-- 16 KB. -/
def outboardThreshold : ℕ := 16 * 1024

namespace BlobStore

def empty : BlobStore := ⟨KeyedMap.empty, KeyedMap.empty, KeyedMap.empty⟩

/-! ## The table -/

/-- `INSERT … ON CONFLICT(hash) DO UPDATE`: a row that exists keeps its creation time. -/
def insertBlob (store : BlobStore) (now : ℤ) (hash : Hash) (size : ℤ) (hasOutboard : Bool) :
    BlobStore :=
  { store with
    rows := store.rows.put hash
      ⟨size, hasOutboard, .complete,
        ((store.rows.get? hash).map BlobMetadata.createdAt).getD now, now⟩ }

def getBlob (store : BlobStore) (hash : Hash) : Option BlobMetadata := store.rows.get? hash

def hasBlob (store : BlobStore) (hash : Hash) : Bool :=
  (store.rows.get? hash).any (fun row => decide (row.state = .complete))

def deleteBlob (store : BlobStore) (hash : Hash) : BlobStore :=
  { store with rows := store.rows.erase hash }

/-- The complete rows, latest first. -/
def listBlobs (store : BlobStore) : List Hash :=
  ((store.rows.toList.filter (fun row => decide (row.2.state = .complete))).mergeSort
    (fun row row' => decide (row'.2.createdAt ≤ row.2.createdAt))).map Prod.fst

/-! ## The storage -/

def putData (store : BlobStore) (hash : Hash) (data : Bytes) : BlobStore :=
  { store with data := store.data.put hash data }

def getData (store : BlobStore) (hash : Hash) : Option Bytes := store.data.get? hash

/-- An object that is not there is deleted without an error. -/
def deleteData (store : BlobStore) (hash : Hash) : BlobStore :=
  { store with data := store.data.erase hash }

def deleteOutboard (store : BlobStore) (hash : Hash) : BlobStore :=
  { store with outboard := store.outboard.erase hash }

end BlobStore

/-! ## Calls -/

/-- A call of `BlobStore`, at the step it takes next. -/
inductive Step where
  -- `put`
  | putData (data : Bytes)
  | insertBlob (data : Bytes)
  -- `get`
  | hasBlob (hash : Hash)
  | getData (hash : Hash)
  -- `delete`
  | getBlob (hash : Hash)
  | deleteData (hash : Hash) (hasOutboard : Bool)
  | deleteOutboard (hash : Hash)
  | deleteBlob (hash : Hash)
  deriving DecidableEq

inductive Answer where
  | stored (hash : Hash)
  | found (hash : Hash) (data : Option Bytes)
  | deleted (existed : Bool)
  deriving DecidableEq

inductive Call where
  | next (step : Step)
  | returned (result : Except Unit Answer)
  deriving DecidableEq

def Call.put (data : Bytes) : Call := .next (.putData data)

def Call.get (hash : Hash) : Call := .next (.hasBlob hash)

def Call.delete (hash : Hash) : Call := .next (.getBlob hash)

/-- How a step ends: well, with an error, or with an error after it took effect. -/
inductive Fate where
  | well
  | refused
  | lost
  deriving DecidableEq

/-- One turn of a call. -/
structure Turn where
  number : ℕ
  fate : Fate
  now : ℤ
  deriving DecidableEq

section

variable (hashOf : Bytes → Hash)

/-- What a step does to the store. -/
def Step.effect (now : ℤ) (store : BlobStore) : Step → BlobStore
  | .putData data => store.putData (hashOf data) data
  | .insertBlob data => store.insertBlob now (hashOf data) (data.length : ℤ)
      (decide (outboardThreshold < data.length))
  | .deleteData hash _ => store.deleteData hash
  | .deleteOutboard hash => store.deleteOutboard hash
  | .deleteBlob hash => store.deleteBlob hash
  | .hasBlob _ | .getData _ | .getBlob _ => store

/-- Where the call is after a step that went well. -/
def Step.following (store : BlobStore) : Step → Call
  | .putData data => .next (.insertBlob data)
  | .insertBlob data => .returned (.ok (.stored (hashOf data)))
  | .hasBlob hash =>
      if store.hasBlob hash then .next (.getData hash) else .returned (.ok (.found hash none))
  | .getData hash => .returned (.ok (.found hash (store.getData hash)))
  | .getBlob hash =>
      match store.getBlob hash with
      | none => .returned (.ok (.deleted false))
      | some row => .next (.deleteData hash row.hasOutboard)
  | .deleteData hash hasOutboard =>
      if hasOutboard then .next (.deleteOutboard hash) else .next (.deleteBlob hash)
  | .deleteOutboard hash => .next (.deleteBlob hash)
  | .deleteBlob _ => .returned (.ok (.deleted true))

/-- A call that has returned stays. -/
def Call.move (fate : Fate) (now : ℤ) (store : BlobStore) : Call → BlobStore × Call
  | .returned result => (store, .returned result)
  | .next step =>
      match fate with
      | .well => (step.effect hashOf now store, step.following hashOf store)
      | .refused => (store, .returned (.error ()))
      | .lost => (step.effect hashOf now store, .returned (.error ()))

/-- Calls side by side. -/
abbrev Calls := Interleaved BlobStore Call

def Calls.turn (calls : Calls) (turn : Turn) : Calls :=
  Interleaved.turn (Call.move hashOf turn.fate turn.now) calls turn.number

def Calls.run (calls : Calls) (turns : List Turn) : Calls :=
  turns.foldl (Calls.turn hashOf) calls

end

/-- What a `get` that is not disturbed returns. -/
def BlobStore.get (store : BlobStore) (hash : Hash) : Option Bytes :=
  if store.hasBlob hash then store.getData hash else none

/-! ## What the steps do -/

section

variable {hashOf : Bytes → Hash} {store : BlobStore} {hash : Hash}

theorem BlobStore.mem_listBlobs_iff : hash ∈ store.listBlobs ↔ store.hasBlob hash = true := by
  unfold listBlobs hasBlob
  rw [List.mem_map, Option.any_eq_true]
  constructor
  · rintro ⟨⟨found, row⟩, hrow, rfl⟩
    obtain ⟨hmem, hstate⟩ := List.mem_filter.mp (List.mem_mergeSort.mp hrow)
    exact ⟨row, FinMap.get?_eq_some_iff.mpr hmem, hstate⟩
  · rintro ⟨row, hrow, hstate⟩
    exact ⟨(hash, row), List.mem_mergeSort.mpr (List.mem_filter.mpr
      ⟨FinMap.get?_eq_some_iff.mp hrow, hstate⟩), rfl⟩

theorem BlobStore.hasBlob_insertBlob (now size : ℤ) (other : Hash) (hasOutboard : Bool) :
    (store.insertBlob now other size hasOutboard).hasBlob hash =
      if other = hash then true else store.hasBlob hash := by
  unfold hasBlob insertBlob
  rw [FinMap.get?_put]
  split_ifs <;> rfl

theorem BlobStore.hasBlob_deleteBlob (other : Hash) :
    (store.deleteBlob other).hasBlob hash =
      if other = hash then false else store.hasBlob hash := by
  unfold hasBlob deleteBlob
  rw [FinMap.get?_erase]
  split_ifs <;> rfl

theorem BlobStore.getData_putData (other : Hash) (data : Bytes) :
    (store.putData other data).getData hash =
      if other = hash then some data else store.getData hash := by
  unfold getData putData
  rw [FinMap.get?_put]
  split_ifs <;> rfl

theorem BlobStore.getData_deleteData (other : Hash) :
    (store.deleteData other).getData hash =
      if other = hash then none else store.getData hash := by
  unfold getData deleteData
  rw [FinMap.get?_erase]
  split_ifs <;> rfl

/-- The bytes under a hash after a step. -/
theorem Step.getData_effect (hashOf : Bytes → Hash) (hash : Hash) (store : BlobStore) (now : ℤ)
    (step : Step) :
    (step.effect hashOf now store).getData hash =
      match step with
      | .putData data => if hashOf data = hash then some data else store.getData hash
      | .deleteData other _ => if other = hash then none else store.getData hash
      | _ => store.getData hash := by
  cases step with
  | putData data => exact BlobStore.getData_putData _ _
  | deleteData other hasOutboard => exact BlobStore.getData_deleteData _
  | _ => rfl

/-- Whether there is a complete row after a step. -/
theorem Step.hasBlob_effect (hashOf : Bytes → Hash) (hash : Hash) (store : BlobStore) (now : ℤ)
    (step : Step) :
    (step.effect hashOf now store).hasBlob hash =
      match step with
      | .insertBlob data => if hashOf data = hash then true else store.hasBlob hash
      | .deleteBlob other => if other = hash then false else store.hasBlob hash
      | _ => store.hasBlob hash := by
  cases step with
  | insertBlob data => exact BlobStore.hasBlob_insertBlob _ _ _ _
  | deleteBlob other => exact BlobStore.hasBlob_deleteBlob _
  | _ => rfl

end

end ObjectStore

end JaxFs

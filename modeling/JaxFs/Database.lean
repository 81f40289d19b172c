import JaxFs.BucketLog

/-!
# The SQLite log

`database/bucket_log_provider.rs` of the daemon, over the table `bucket_log` of its
migrations.  Heights are stored as `i64`.  The table admits one row for each height
of a bucket and one for each link; whether a violation is reported as a conflict
depends on the driver naming the constraint.
-/

namespace JaxFs

/-- `n as i64`. -/
def toI64 (n : ℕ) : ℤ := Int.bmod n (2 ^ 64)

/-- `n as u64`. -/
def toU64 (n : ℤ) : ℕ := (n % 2 ^ 64).toNat

/-- A row of `bucket_log`. -/
structure BucketLogRow where
  bucketId : Uuid
  name : Name
  currentLink : Link
  previousLink : Option Link
  height : ℤ
  published : Bool
  deriving DecidableEq

structure Database where
  bucketLog : List BucketLogRow
  /-- The driver's errors carry the name of a violated constraint. -/
  namesConstraints : Bool

namespace Database

def uniqueError (db : Database) : BucketLogError :=
  if db.namesConstraints then .conflict
  else .provider "UNIQUE constraint failed"

/-- `UNIQUE(bucket_id, height)` and `UNIQUE(bucket_id, current_link)`. -/
def violatesUnique (db : Database) (row : BucketLogRow) : Bool :=
  db.bucketLog.any (fun other => decide (other.bucketId = row.bucketId ∧
    (other.height = row.height ∨ other.currentLink = row.currentLink)))

/-- The checks of `append` before the insertion. -/
def appendError (db : Database) (id : Uuid) (current : Link) (previous : Option Link)
    (height : ℕ) : Option BucketLogError :=
  match previous with
  | none =>
      if height ≠ 0 then some (.invalidAppend current Link.default height) else none
  | some prevLink =>
      if height = 0 then some (.invalidAppend current prevLink height)
      else if db.bucketLog.any (fun row => decide (row.bucketId = id ∧
          row.currentLink = prevLink ∧ row.height = toI64 (height - 1))) then none
      else some (.invalidAppend current prevLink height)

def append (db : Database) (id : Uuid) (name : Name) (current : Link)
    (previous : Option Link) (height : ℕ) (published : Bool) :
    Except BucketLogError Unit × Database :=
  match db.appendError id current previous height with
  | some error => (.error error, db)
  | none =>
      let row : BucketLogRow := ⟨id, name, current, previous, toI64 height, published⟩
      if db.violatesUnique row then (.error db.uniqueError, db)
      else (.ok (), { db with bucketLog := db.bucketLog ++ [row] })

instance : BucketLogProvider Database where
  «exists» db id := .ok (db.bucketLog.any (fun row => decide (row.bucketId = id)))
  heads db id height := .ok ((db.bucketLog.filter (fun row =>
    decide (row.bucketId = id ∧ row.height = toI64 height))).map
      BucketLogRow.currentLink)
  append := append
  height db id :=
    match ((db.bucketLog.filter (fun row => decide (row.bucketId = id))).map
        BucketLogRow.height).max? with
    | some top => .ok (toU64 top)
    | none => .error (.headNotFound 0)
  has db id link := .ok ((db.bucketLog.filter (fun row =>
    decide (row.bucketId = id ∧ row.currentLink = link))).map
      (fun row => toU64 row.height))

end Database

end JaxFs

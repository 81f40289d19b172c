import JaxFs.KeyParsing

/-!
# The table of mounts

`database/models/fuse_mount.rs` of the daemon and the table `fuse_mounts` that it works on.
The identifier of a mount is the primary key and its mount point is unique, so both are kept
by every statement that the table accepts.  A row is known by its identifier.
-/

namespace JaxFs

inductive MountStatus where
  | stopped
  | starting
  | running
  | stopping
  | error
  deriving DecidableEq

namespace MountStatus

def asStr : MountStatus → String
  | .stopped => "stopped"
  | .starting => "starting"
  | .running => "running"
  | .stopping => "stopping"
  | .error => "error"

/-- What is not a status is read as `stopped`. -/
def fromStr (s : String) : MountStatus :=
  if s = "starting" then .starting
  else if s = "running" then .running
  else if s = "stopping" then .stopping
  else if s = "error" then .error
  else .stopped

/-- A status is read back from its column. -/
@[simp] theorem fromStr_asStr (status : MountStatus) : fromStr status.asStr = status := by
  cases status <;> decide

end MountStatus

/-- A row of `fuse_mounts`. -/
structure FuseMountRow where
  mountId : Uuid
  bucketId : Uuid
  mountPoint : Name
  enabled : Bool
  autoMount : Bool
  readOnly : Bool
  cacheSizeMb : ℤ
  cacheTtlSecs : ℤ
  status : MountStatus
  errorMessage : Option String
  createdAt : ℕ
  deriving DecidableEq

/-- The arguments of `FuseMount::create`, but for the identifier. -/
structure NewMount where
  bucketId : Uuid
  mountPoint : Name
  autoMount : Bool
  readOnly : Bool
  cacheSizeMb : Option ℕ
  cacheTtlSecs : Option ℕ

/-- The row that is inserted, with the defaults of the columns. -/
def NewMount.row (new : NewMount) (mountId : Uuid) (now : ℕ) : FuseMountRow where
  mountId := mountId
  bucketId := new.bucketId
  mountPoint := new.mountPoint
  enabled := true
  autoMount := new.autoMount
  readOnly := new.readOnly
  cacheSizeMb := ((new.cacheSizeMb.map Nat.cast).getD 100 : ℤ)
  cacheTtlSecs := ((new.cacheTtlSecs.map Nat.cast).getD 60 : ℤ)
  status := .stopped
  errorMessage := none
  createdAt := now

/-- The arguments of `FuseMount::update`. -/
structure MountChanges where
  mountPoint : Option Name
  enabled : Option Bool
  autoMount : Option Bool
  readOnly : Option Bool
  cacheSizeMb : Option ℕ
  cacheTtlSecs : Option ℕ

/-- The columns that `FuseMount::update` writes: what it is given, else what it has read. -/
def MountChanges.over (changes : MountChanges) (existing row : FuseMountRow) : FuseMountRow :=
  { row with
    mountPoint := changes.mountPoint.getD existing.mountPoint
    enabled := changes.enabled.getD existing.enabled
    autoMount := changes.autoMount.getD existing.autoMount
    readOnly := changes.readOnly.getD existing.readOnly
    cacheSizeMb := (changes.cacheSizeMb.map Nat.cast).getD existing.cacheSizeMb
    cacheTtlSecs := (changes.cacheTtlSecs.map Nat.cast).getD existing.cacheTtlSecs }

structure FuseMounts where
  rows : List FuseMountRow
  ids : (rows.map FuseMountRow.mountId).Nodup
  points : (rows.map FuseMountRow.mountPoint).Nodup

namespace FuseMounts

def find (rows : List FuseMountRow) (id : Uuid) : Option FuseMountRow :=
  rows.find? (fun row => decide (row.mountId = id))

def get (table : FuseMounts) (id : Uuid) : Option FuseMountRow := find table.rows id

/-! ## Changing the row of one mount -/

/-- An `UPDATE` of the row with the identifier. -/
def updateWhere (rows : List FuseMountRow) (id : Uuid) (change : FuseMountRow → FuseMountRow) :
    List FuseMountRow :=
  rows.map (fun row => if row.mountId = id then change row else row)

section

variable {rows : List FuseMountRow} {id : Uuid} {change : FuseMountRow → FuseMountRow}

theorem map_mountId_updateWhere (hid : ∀ row, (change row).mountId = row.mountId) :
    (updateWhere rows id change).map FuseMountRow.mountId =
      rows.map FuseMountRow.mountId := by
  unfold updateWhere
  rw [List.map_map]
  apply List.map_congr_left
  intro row hrow
  by_cases h : row.mountId = id <;> simp [h, hid]

theorem find_updateWhere (hid : ∀ row, (change row).mountId = row.mountId) (other : Uuid) :
    find (updateWhere rows id change) other =
      (find rows other).map (fun row => if other = id then change row else row) := by
  unfold find updateWhere
  induction rows with
  | nil => simp
  | cons row rest ih =>
      rw [List.map_cons, List.find?_cons, List.find?_cons]
      by_cases hrow : row.mountId = id
      · by_cases hother : row.mountId = other
        · simp [← hother, hrow, hid]
        · simpa [hrow, hid, show id ≠ other from hrow ▸ hother] using ih
      · by_cases hother : row.mountId = other
        · simp [hother, show other ≠ id from hother ▸ hrow]
        · simpa [hrow, hother] using ih

theorem nodup_ids_updateWhere (h : (rows.map FuseMountRow.mountId).Nodup)
    (hid : ∀ row, (change row).mountId = row.mountId) :
    ((updateWhere rows id change).map FuseMountRow.mountId).Nodup := by
  rw [map_mountId_updateWhere hid]
  exact h

theorem nodup_points_updateWhere (h : (rows.map FuseMountRow.mountPoint).Nodup)
    (hpoint : ∀ row, (change row).mountPoint = row.mountPoint) :
    ((updateWhere rows id change).map FuseMountRow.mountPoint).Nodup := by
  have hmap : (updateWhere rows id change).map FuseMountRow.mountPoint =
      rows.map FuseMountRow.mountPoint := by
    unfold updateWhere
    rw [List.map_map]
    apply List.map_congr_left
    intro row hrow
    by_cases h : row.mountId = id <;> simp [h, hpoint]
  rw [hmap]
  exact h

/-- A mount point that no other row has can be given to one row. -/
theorem nodup_points_of_free {point : Name} (hids : (rows.map FuseMountRow.mountId).Nodup)
    (h : (rows.map FuseMountRow.mountPoint).Nodup)
    (hpoint : ∀ row, (change row).mountPoint = point)
    (hfree : ∀ row ∈ rows, row.mountId ≠ id → row.mountPoint ≠ point) :
    ((updateWhere rows id change).map FuseMountRow.mountPoint).Nodup := by
  unfold updateWhere
  rw [List.map_map]
  induction rows with
  | nil => simp
  | cons row rest ih =>
      simp only [List.map_cons, List.nodup_cons] at hids h ⊢
      have hrest := ih hids.2 h.2 (fun row hrow => hfree row (List.mem_cons_of_mem _ hrow))
      refine ⟨?_, hrest⟩
      intro hmem
      obtain ⟨other, hother, heq⟩ := List.mem_map.mp hmem
      have hotherId : other.mountId ≠ row.mountId := by
        intro hsame
        exact hids.1 (List.mem_map.mpr ⟨other, hother, hsame⟩)
      have hotherPoint : other.mountPoint ≠ row.mountPoint := by
        intro hsame
        exact h.1 (List.mem_map.mpr ⟨other, hother, hsame⟩)
      have hotherFree := hfree other (List.mem_cons_of_mem _ hother)
      have hrowFree := hfree row List.mem_cons_self
      simp only [Function.comp_apply] at heq
      split_ifs at heq with hotherHit hrowHit hrowHit
      · exact hotherId (hotherHit.trans hrowHit.symm)
      · rw [hpoint] at heq
        exact hrowFree hrowHit heq.symm
      · rw [hpoint] at heq
        exact hotherFree hotherHit heq
      · exact hotherPoint heq

end

/-! ## Statements -/

/-- What SQLite says when a row with this value is there already. -/
def uniqueFailed (column : String) : String :=
  "UNIQUE constraint failed: fuse_mounts." ++ column

theorem nodup_insert {κ : Type} {rows : List FuseMountRow} {row : FuseMountRow}
    {column : FuseMountRow → κ} (h : (rows.map column).Nodup)
    (hnew : column row ∉ rows.map column) : ((rows ++ [row]).map column).Nodup := by
  rw [List.map_append, List.map_singleton]
  refine List.nodup_append.mpr ⟨h, by simp, ?_⟩
  intro a ha b hb
  obtain rfl := List.mem_singleton.mp hb
  exact fun heq => hnew (heq ▸ ha)

/-- The `INSERT` of `FuseMount::create`. -/
def insert (table : FuseMounts) (row : FuseMountRow) : Except String FuseMounts :=
  if hid : row.mountId ∈ table.rows.map FuseMountRow.mountId then
    .error (uniqueFailed "mount_id")
  else if hpoint : row.mountPoint ∈ table.rows.map FuseMountRow.mountPoint then
    .error (uniqueFailed "mount_point")
  else .ok ⟨table.rows ++ [row], nodup_insert table.ids hid, nodup_insert table.points hpoint⟩

/-- The `UPDATE` of `FuseMount::update`, with the row that was read before. -/
def update (table : FuseMounts) (existing : FuseMountRow) (changes : MountChanges) :
    Except String FuseMounts :=
  if hfree : ∀ row ∈ table.rows, row.mountId ≠ existing.mountId →
      row.mountPoint ≠ changes.mountPoint.getD existing.mountPoint then
    .ok ⟨updateWhere table.rows existing.mountId (changes.over existing),
      nodup_ids_updateWhere table.ids (fun _ => rfl),
      nodup_points_of_free table.ids table.points (fun _ => rfl) hfree⟩
  else .error (uniqueFailed "mount_point")

/-- `FuseMount::update_status`. -/
def updateStatus (table : FuseMounts) (id : Uuid) (status : MountStatus)
    (errorMessage : Option String) : FuseMounts :=
  ⟨updateWhere table.rows id
      (fun row => { row with status := status, errorMessage := errorMessage }),
    nodup_ids_updateWhere table.ids (fun _ => rfl),
    nodup_points_updateWhere table.points (fun _ => rfl)⟩

theorem nodup_erase {κ : Type} {rows : List FuseMountRow} {column : FuseMountRow → κ}
    (h : (rows.map column).Nodup) (keep : FuseMountRow → Bool) :
    ((rows.filter keep).map column).Nodup :=
  h.sublist (List.filter_sublist.map column)

/-- `FuseMount::delete`.  The answer says whether there was such a row. -/
def delete (table : FuseMounts) (id : Uuid) : FuseMounts × Bool :=
  (⟨table.rows.filter (fun row => decide (row.mountId ≠ id)), nodup_erase table.ids _,
    nodup_erase table.points _⟩, (table.get id).isSome)

/-- `FuseMount::auto_list`.  Rows of the same time stay in the order of their insertion. -/
def autoList (table : FuseMounts) : List FuseMountRow :=
  (table.rows.filter (fun row => row.autoMount && row.enabled)).insertionSort
    (fun row row' => row.createdAt ≤ row'.createdAt)

/-! ## Reading a row after a statement -/

section

variable {table table' : FuseMounts} {id other : Uuid}

theorem get_mountId {row : FuseMountRow} (h : table.get id = some row) : row.mountId = id := by
  simpa using List.find?_some h

theorem get_eq_some_iff {row : FuseMountRow} :
    table.get id = some row ↔ row ∈ table.rows ∧ row.mountId = id := by
  constructor
  · intro h
    exact ⟨List.mem_of_find?_eq_some h, get_mountId h⟩
  · intro h
    obtain ⟨hrow, rfl⟩ := h
    cases hget : table.get row.mountId with
    | none =>
        have hnone := List.find?_eq_none.mp hget row hrow
        simp at hnone
    | some found =>
        have hfound := List.mem_of_find?_eq_some hget
        have hid := get_mountId hget
        rw [List.inj_on_of_nodup_map table.ids hfound hrow hid]

theorem get_insert {row : FuseMountRow} (h : table.insert row = .ok table') :
    table.get row.mountId = none ∧
      ∀ other, table'.get other = if other = row.mountId then some row else table.get other := by
  unfold insert at h
  split_ifs at h with hid hpoint
  cases h
  have hnone : table.get row.mountId = none := by
    refine List.find?_eq_none.mpr (fun found hfound hmatch => hid ?_)
    exact List.mem_map.mpr ⟨found, hfound, by simpa using hmatch⟩
  refine ⟨hnone, fun other => ?_⟩
  unfold get find at hnone ⊢
  dsimp only
  rw [List.find?_append]
  by_cases hother : other = row.mountId
  · rw [hother, hnone]
    simp
  · rw [if_neg hother, List.find?_cons_of_neg (by simpa using Ne.symm hother)]
    simp

theorem get_update {existing : FuseMountRow} {changes : MountChanges}
    (h : table.update existing changes = .ok table') (other : Uuid) :
    table'.get other = (table.get other).map (fun row =>
      if other = existing.mountId then changes.over existing row else row) := by
  unfold update at h
  split_ifs at h with hfree
  cases h
  exact @find_updateWhere table.rows _ (changes.over existing) (fun _ => rfl) other

@[simp] theorem get_updateStatus {status : MountStatus} {errorMessage : Option String} :
    (table.updateStatus id status errorMessage).get other = (table.get other).map (fun row =>
      if other = id then { row with status := status, errorMessage := errorMessage }
      else row) :=
  @find_updateWhere table.rows id
    (fun row => { row with status := status, errorMessage := errorMessage }) (fun _ => rfl) other

@[simp] theorem get_delete :
    (table.delete id).1.get other = if other = id then none else table.get other := by
  unfold delete get find
  dsimp only
  rw [List.find?_filter]
  by_cases hother : other = id
  · rw [if_pos hother, List.find?_eq_none]
    intro row hrow
    simp [hother]
  · rw [if_neg hother]
    congr 1
    funext row
    by_cases hrow : row.mountId = other
    · simp [hrow, hother]
    · simp [hrow]

theorem mem_autoList {row : FuseMountRow} :
    row ∈ table.autoList ↔ row ∈ table.rows ∧ row.autoMount = true ∧ row.enabled = true := by
  simp [autoList, List.mem_insertionSort]

end

end FuseMounts

end JaxFs

import JaxFs.LogAgreement
import JaxFs.LogProviders

/-!
# The table of the log

The SQLite provider statement by statement: the look at the previous link and the
insertion are two of them, and both constraints of the table are enforced by the second.
Row ids are drawn by `AUTOINCREMENT` and rows are never deleted, so that a table has
fewer than 2^63 rows in its whole life.  A bucket whose versions form a single chain
therefore never comes to a height that wraps as an `i64`.
-/

namespace JaxFs

open BucketLogProvider

/-- The largest row id; after it SQLite refuses every insertion. -/
def maxRowId : ℕ := 2 ^ 63 - 1

/-- The database, with a row id for every row it has. -/
structure LogTable where
  db : Database
  rowIds : db.bucketLog.length ≤ maxRowId

namespace LogTable

/-- The `INSERT` of `append`. -/
def insert (table : LogTable) (row : BucketLogRow) : Except BucketLogError Unit × LogTable :=
  if h : table.db.bucketLog.length < maxRowId then
    if table.db.violatesUnique row then (.error table.db.uniqueError, table)
    else
      (.ok (), ⟨{ table.db with bucketLog := table.db.bucketLog ++ [row] }, by simpa using h⟩)
  else (.error (.provider "database or disk is full"), table)

instance : BucketLogProvider LogTable where
  «exists» table id := BucketLogProvider.exists table.db id
  heads table id height := heads table.db id height
  append table id name current previous height published :=
    match table.db.appendError id current previous height with
    | some error => (.error error, table)
    | none => table.insert ⟨id, name, current, previous, toI64 height, published⟩
  height table id := height table.db id
  has table id link := has table.db id link

theorem append_eq (table : LogTable) (id : Uuid) (name : Name) (current : Link)
    (previous : Option Link) (height : ℕ) (published : Bool) :
    append table id name current previous height published =
      match table.db.appendError id current previous height with
      | some error => (.error error, table)
      | none => table.insert ⟨id, name, current, previous, toI64 height, published⟩ := rfl

/-- As long as there are row ids the table is the database. -/
theorem append_db {table : LogTable} (hroom : table.db.bucketLog.length < maxRowId)
    (id : Uuid) (name : Name) (current : Link) (previous : Option Link) (height : ℕ)
    (published : Bool) :
    table.db.append id name current previous height published =
      ((append table id name current previous height published).1,
        (append table id name current previous height published).2.db) := by
  rw [append_eq]
  unfold Database.append insert
  cases table.db.appendError id current previous height with
  | some error => rfl
  | none =>
      simp only [dif_pos hroom]
      split_ifs <;> rfl

/-- What an accepted insertion has checked and done. -/
theorem insert_eq_ok {table table' : LogTable} {row : BucketLogRow}
    (h : table.insert row = (.ok (), table')) :
    table.db.violatesUnique row = false ∧
      table'.db.bucketLog = table.db.bucketLog ++ [row] := by
  unfold insert at h
  split_ifs at h with hroom hunique
  · simp at h
  · have htable := (Prod.mk.inj h).2
    rw [← htable]
    exact ⟨by simpa using hunique, rfl⟩
  · simp at h

theorem insert_eq_error {table table' : LogTable} {row : BucketLogRow}
    {error : BucketLogError} (h : table.insert row = (.error error, table')) :
    table' = table := by
  unfold insert at h
  split_ifs at h <;> simp_all

def rowsOf (table : LogTable) (id : Uuid) : List BucketLogRow :=
  table.db.bucketLog.filter (fun row => decide (row.bucketId = id))

theorem mem_rowsOf {table : LogTable} {id : Uuid} {row : BucketLogRow} :
    row ∈ table.rowsOf id ↔ row ∈ table.db.bucketLog ∧ row.bucketId = id := by
  simp [rowsOf]

end LogTable

/-! ## A single chain -/

/-- The link below height `n`. -/
def previousAt (links : List Link) : ℕ → Option Link
  | 0 => none
  | n + 1 => links[n]?

theorem previousAt_append {links : List Link} {n : ℕ} (hn : n ≤ links.length) (link : Link) :
    previousAt (links ++ [link]) n = previousAt links n := by
  cases n with
  | zero => rfl
  | succ n => exact List.getElem?_append_left (by omega)

def BucketLogRow.place (row : BucketLogRow) : ℤ × Option Link × Option Link :=
  (row.height, some row.currentLink, row.previousLink)

def placeAt (links : List Link) (n : ℕ) : ℤ × Option Link × Option Link :=
  (n, links[n]?, previousAt links n)

section

variable [P : Primitives]

/-- The bucket has one row for each height from 0 on, on top of the row below it, and
the manifests say the same. -/
structure SingleChain (peer : PeerState LogTable) (id : Uuid) (links : List Link) : Prop where
  rows : ((peer.logs.rowsOf id).map BucketLogRow.place).Perm
    ((List.range links.length).map (placeAt links))
  manifests : ∀ n link, links[n]? = some link →
    ∃ manifest, getManifestFromBlobs peer.world.blobs link = .ok manifest ∧
      manifest.id = id ∧ manifest.height = n ∧ manifest.previous = previousAt links n

namespace SingleChain

variable {peer : PeerState LogTable} {id : Uuid} {links : List Link} {n : ℕ} {link : Link}

theorem length_le (h : SingleChain peer id links) : links.length ≤ maxRowId := by
  have hlength := h.rows.length_eq
  simp only [List.length_map, List.length_range] at hlength
  have hrows : (peer.logs.rowsOf id).length ≤ peer.logs.db.bucketLog.length :=
    List.length_filter_le _ _
  have hids := peer.logs.rowIds
  omega

theorem of_row (h : SingleChain peer id links) {row : BucketLogRow}
    (hrow : row ∈ peer.logs.db.bucketLog) (hid : row.bucketId = id) :
    ∃ n < links.length, row.height = n ∧ links[n]? = some row.currentLink := by
  have hmem : row.place ∈ (List.range links.length).map (placeAt links) := by
    rw [← h.rows.mem_iff]
    exact List.mem_map_of_mem (LogTable.mem_rowsOf.mpr ⟨hrow, hid⟩)
  obtain ⟨n, hn, hplace⟩ := List.mem_map.mp hmem
  simp only [placeAt, BucketLogRow.place, Prod.mk.injEq] at hplace
  exact ⟨n, List.mem_range.mp hn, hplace.1.symm, hplace.2.1⟩

theorem exists_row (h : SingleChain peer id links) (hlink : links[n]? = some link) :
    ∃ row ∈ peer.logs.db.bucketLog, row.bucketId = id ∧ row.height = n ∧
      row.currentLink = link := by
  have hn : n < links.length := (List.getElem?_eq_some_iff.mp hlink).1
  have hmem : placeAt links n ∈ (peer.logs.rowsOf id).map BucketLogRow.place := by
    rw [h.rows.mem_iff]
    exact List.mem_map_of_mem (List.mem_range.mpr hn)
  obtain ⟨row, hrow, hplace⟩ := List.mem_map.mp hmem
  obtain ⟨hrow, hid⟩ := LogTable.mem_rowsOf.mp hrow
  simp only [placeAt, BucketLogRow.place, Prod.mk.injEq, hlink, Option.some.injEq] at hplace
  exact ⟨row, hrow, hid, hplace.1, hplace.2.1⟩

theorem toI64_of_le (h : SingleChain peer id links) (hn : n ≤ links.length) :
    toI64 n = n := by
  have hlength := h.length_le
  unfold maxRowId at hlength
  rw [Database.toI64_eq (by omega), if_pos (by omega)]

theorem height_eq (h : SingleChain peer id links) (hne : links ≠ []) :
    height peer.logs id = .ok (links.length - 1) := by
  have hpos := List.length_pos_iff.mpr hne
  have hlength := h.length_le
  unfold maxRowId at hlength
  have hmax : ((peer.logs.db.bucketLog.filter (fun row => decide (row.bucketId = id))).map
      BucketLogRow.height).max? = some ((links.length - 1 : ℕ) : ℤ) := by
    rw [List.max?_eq_some_iff]
    constructor
    · obtain ⟨row, hrow, hid, hheight, -⟩ :=
        h.exists_row (List.getElem?_eq_getElem (show links.length - 1 < links.length by omega))
      rw [← hheight]
      exact List.mem_map_of_mem (LogTable.mem_rowsOf.mpr ⟨hrow, hid⟩)
    · intro below hbelow
      obtain ⟨row, hrow, rfl⟩ := List.mem_map.mp hbelow
      obtain ⟨hrow, hid⟩ := LogTable.mem_rowsOf.mp hrow
      obtain ⟨n, hn, hheight, -⟩ := h.of_row hrow hid
      omega
  have hheight := Database.height_of_max hmax
  rw [← h.toI64_of_le (by omega), Database.toU64_toI64 (by omega)] at hheight
  exact hheight

theorem heads_eq_ok {top : ℕ} {heads' : List Link}
    (hheads : heads peer.logs id top = .ok heads') {link : Link} :
    link ∈ heads' ↔ ∃ row ∈ peer.logs.db.bucketLog, row.bucketId = id ∧
      row.height = toI64 top ∧ row.currentLink = link := by
  have hquery := Except.ok.inj hheads
  rw [← hquery]
  simp [and_assoc]

theorem mem_of_heads (h : SingleChain peer id links) {top : ℕ} {heads' : List Link}
    (hheads : heads peer.logs id top = .ok heads') (hlink : link ∈ heads') :
    link ∈ links := by
  obtain ⟨row, hrow, hid, -, rfl⟩ := (heads_eq_ok hheads).mp hlink
  obtain ⟨n, -, -, hmem⟩ := h.of_row hrow hid
  exact List.mem_of_getElem? hmem

/-- The head of the bucket is the last version of the chain. -/
theorem head_eq (h : SingleChain peer id links) (hlast : links.getLast? = some link) :
    head peer.logs id none = .ok (link, links.length - 1) := by
  have hne : links ≠ [] := by
    intro hnil
    simp [hnil] at hlast
  have hpos := List.length_pos_iff.mpr hne
  have hat : links[links.length - 1]? = some link := by
    rw [← List.getLast?_eq_getElem?]
    exact hlast
  obtain ⟨heads', hheads⟩ : ∃ heads', heads peer.logs id (links.length - 1) = .ok heads' :=
    ⟨_, rfl⟩
  have hmax : heads'.maximum = (link : WithBot Link) := by
    rw [List.maximum_eq_coe_iff]
    have hmem : ∀ other, other ∈ heads' ↔ other = link := by
      intro other
      rw [heads_eq_ok hheads, h.toI64_of_le (by omega)]
      constructor
      · rintro ⟨row, hrow, hid, hheight, rfl⟩
        obtain ⟨n, -, hn, hfound⟩ := h.of_row hrow hid
        have hsame : n = links.length - 1 := by omega
        rw [hsame, hat] at hfound
        exact (Option.some.inj hfound).symm
      · rintro rfl
        exact h.exists_row hat
    exact ⟨(hmem link).mpr rfl, fun other hother => ((hmem other).mp hother).le⟩
  unfold head
  simp only [h.height_eq hne, Option.getD_none, hheads, hmax, bind, Except.bind]
  rfl

theorem of_grows {world : World} (h : SingleChain peer id links)
    (hgrows : Grows peer.world world) : SingleChain { peer with world := world } id links := by
  refine ⟨h.rows, ?_⟩
  intro n link hlink
  obtain ⟨manifest, hread, hmanifest⟩ := h.manifests n link hlink
  exact ⟨manifest, hgrows.getManifestFromBlobs hread, hmanifest⟩

theorem of_jobs_eq {peer' : PeerState LogTable} (h : SingleChain peer id links)
    (hworld : peer'.world = peer.world) (hlogs : peer'.logs = peer.logs) :
    SingleChain peer' id links := by
  refine ⟨?_, ?_⟩
  · rw [hlogs]
    exact h.rows
  · rw [hworld]
    exact h.manifests

/-- The constraint on heights keeps a version on top of an older one out. -/
theorem eq_length_of_insert (h : SingleChain peer id links) {row : BucketLogRow}
    {below : ℕ} (hbelow : below < links.length) (hid : row.bucketId = id)
    (hheight : row.height = toI64 (below + 1))
    (hunique : peer.logs.db.violatesUnique row = false) : below + 1 = links.length := by
  by_contra hne
  have hlt : below + 1 < links.length := by omega
  obtain ⟨other, hother, hotherId, hotherHeight, -⟩ :=
    h.exists_row (List.getElem?_eq_getElem hlt)
  have hviolates : peer.logs.db.violatesUnique row = true := by
    unfold Database.violatesUnique
    rw [List.any_eq_true]
    refine ⟨other, hother, decide_eq_true ⟨hotherId.trans hid.symm, Or.inl ?_⟩⟩
    rw [hotherHeight, hheight, h.toI64_of_le (by omega)]
  rw [hviolates] at hunique
  contradiction

/-- A version that is inserted on top of one of the chain is the next version. -/
theorem insert (h : SingleChain peer id links) {row : BucketLogRow} {logs : LogTable}
    (hinsert : peer.logs.insert row = (.ok (), logs)) {below : ℕ} {previous : Link}
    (hprevious : links[below]? = some previous) (hid : row.bucketId = id)
    (hheight : row.height = toI64 (below + 1)) (hrow : row.previousLink = some previous)
    {manifest : Manifest}
    (hread : getManifestFromBlobs peer.world.blobs row.currentLink = .ok manifest)
    (hmanifestId : manifest.id = id) (hmanifestHeight : manifest.height = below + 1)
    (hmanifestPrevious : manifest.previous = some previous) :
    SingleChain { peer with logs := logs } id (links ++ [row.currentLink]) := by
  obtain ⟨hunique, hrows⟩ := LogTable.insert_eq_ok hinsert
  have hbelow := (List.getElem?_eq_some_iff.mp hprevious).1
  have htop := h.eq_length_of_insert hbelow hid hheight hunique
  have hbefore : previousAt (links ++ [row.currentLink]) links.length = some previous := by
    rw [previousAt_append le_rfl, ← htop]
    exact hprevious
  have htopHeight : row.height = links.length := by
    rw [hheight, htop, h.toI64_of_le le_rfl]
  have hplace : placeAt (links ++ [row.currentLink]) links.length = row.place := by
    simp [placeAt, BucketLogRow.place, hbefore, htopHeight, hrow]
  constructor
  · have hof : logs.rowsOf id = peer.logs.rowsOf id ++ [row] := by
      simp [LogTable.rowsOf, hrows, hid]
    rw [hof, List.map_append, List.length_append, List.length_singleton, List.range_succ,
      List.map_append, List.map_singleton, List.map_singleton, hplace]
    apply List.Perm.append_right
    have hold : (List.range links.length).map (placeAt (links ++ [row.currentLink])) =
        (List.range links.length).map (placeAt links) := by
      apply List.map_congr_left
      intro n hn
      have hlt := List.mem_range.mp hn
      rw [placeAt, placeAt, previousAt_append hlt.le, List.getElem?_append_left hlt]
    rw [hold]
    exact h.rows
  · intro n link hlink
    by_cases hlt : n < links.length
    · rw [List.getElem?_append_left hlt] at hlink
      rw [previousAt_append hlt.le]
      exact h.manifests n link hlink
    · have hlength := (List.getElem?_eq_some_iff.mp hlink).1
      rw [List.length_append, List.length_singleton] at hlength
      obtain rfl : n = links.length := by omega
      rw [List.getElem?_concat_length] at hlink
      cases hlink
      rw [hbefore]
      exact ⟨manifest, hread, hmanifestId, hmanifestHeight.trans htop, hmanifestPrevious⟩

end SingleChain

/-- A new bucket is a chain of its genesis. -/
theorem singleChain_create [LawfulPrimitives] {env : PeerEnv} {id : Uuid} {name : Name}
    {peer peer' : PeerState LogTable}
    (hnew : ∀ row ∈ peer.logs.db.bucketLog, row.bucketId ≠ id)
    (hrun : (create env id name).run peer = .ok () peer') :
    ∃ genesis, SingleChain peer' id [genesis] := by
  rw [EStateM.run] at hrun
  unfold create at hrun
  split_ifs at hrun with hname
  cases hinit : (init id name env.secretKey).run peer.world with
  | error fault world => simp [hinit] at hrun
  | ok mount world =>
      obtain ⟨hread, hid, hprevious, hheight⟩ := manifest_of_init hinit
      rw [hinit] at hrun
      dsimp only at hrun
      cases happend : append peer.logs id name mount.link none 0 false with
      | mk verdict logs =>
          cases verdict with
          | error error => simp [happend] at hrun
          | ok _ =>
              simp only [happend] at hrun
              cases hrun
              have hinsert : peer.logs.insert ⟨id, name, mount.link, none, toI64 0, false⟩ =
                  (.ok (), logs) := happend
              have hzero : toI64 0 = 0 := by decide
              have hrowsOf : logs.rowsOf id =
                  [⟨id, name, mount.link, none, toI64 0, false⟩] := by
                have hold : peer.logs.rowsOf id = [] := by
                  simpa [LogTable.rowsOf] using hnew
                unfold LogTable.rowsOf at hold ⊢
                rw [(LogTable.insert_eq_ok hinsert).2, List.filter_append, hold]
                simp
              refine ⟨mount.link, ?_, ?_⟩
              · simp [hrowsOf, BucketLogRow.place, placeAt, previousAt, hzero]
              · intro n link hlink
                cases n with
                | zero =>
                    cases hlink
                    exact ⟨mount.manifest, hread, hid, hheight, hprevious⟩
                | succ n => simp at hlink

end

end JaxFs

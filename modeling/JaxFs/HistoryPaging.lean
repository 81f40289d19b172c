import JaxFs.LogProviders
import JaxFs.Unsigned

/-!
# Pages of a history

`Database::get_bucket_logs` gives the log of a bucket in pages, the latest version first.  A
page has at most 100 entries, but it starts where pages of the size that was asked for would
have it start, a product of 32 bits.
-/

namespace JaxFs

/-- An entry of the history; the time at which its row was written is left out. -/
structure BucketLogEntry where
  bucketId : Uuid
  name : Name
  currentLink : Link
  previousLink : Option Link
  height : ℕ
  published : Bool
  deriving DecidableEq

def BucketLogRow.toEntry (row : BucketLogRow) : BucketLogEntry :=
  ⟨row.bucketId, row.name, row.currentLink, row.previousLink, toU64 row.height, row.published⟩

/-- Windows of a list that follow one another are what it starts with. -/
theorem flatten_windows {α : Type*} (rows : List α) (size count : ℕ) :
    ((List.range count).map (fun page => (rows.drop (page * size)).take size)).flatten =
      rows.take (count * size) := by
  induction count with
  | zero => rw [List.range_zero, List.map_nil, Nat.zero_mul, List.take_zero, List.flatten_nil]
  | succ count ih =>
      rw [List.range_succ, List.map_append, List.flatten_append, ih, Nat.succ_mul, List.take_add]
      simp

theorem mem_window {α : Type*} {rows : List α} {row : α} {place offset limit : ℕ}
    (h : rows[place]? = some row) (hlow : offset ≤ place) (hhigh : place < offset + limit) :
    row ∈ (rows.drop offset).take limit := by
  have hplace : ((rows.drop offset).take limit)[place - offset]? = some row := by
    rw [List.getElem?_take_of_lt (by omega), List.getElem?_drop, Nat.add_sub_cancel' hlow, h]
  exact List.mem_of_getElem? hplace

/-- Two parts of a list without duplicates have nothing in common. -/
theorem not_mem_of_nodup_flatten {α : Type*} {parts : List (List α)} (h : parts.flatten.Nodup)
    {first second : ℕ} (hlt : first < second) {part part' : List α}
    (hpart : parts[first]? = some part) (hpart' : parts[second]? = some part') {a : α}
    (hmem : a ∈ part) : a ∉ part' := by
  obtain ⟨hfirst, rfl⟩ := List.getElem?_eq_some_iff.mp hpart
  obtain ⟨hsecond, rfl⟩ := List.getElem?_eq_some_iff.mp hpart'
  have hdisjoint := List.pairwise_iff_getElem.mp (List.nodup_flatten.mp h).2
  exact fun hmem' => hdisjoint first second hfirst hsecond hlt hmem hmem'

namespace Database

/-- `WHERE bucket_id = ?1`. -/
def rowsOf (db : Database) (id : Uuid) : List BucketLogRow :=
  db.bucketLog.filter (fun row => decide (row.bucketId = id))

/-- `ORDER BY height DESC`. -/
def latestFirst (db : Database) (id : Uuid) : List BucketLogRow :=
  (db.rowsOf id).mergeSort (fun row row' => decide (row'.height ≤ row.height))

/-- A build with overflow checks panics, which is `none`, where the product does not fit. -/
def getBucketLogs (checks : Bool) (db : Database) (id : Uuid) (page pageSize : ℕ) :
    Option (List BucketLogEntry) := do
  let limit := min pageSize 100
  let offset ← unsigned checks 32 (page * pageSize)
  some ((((db.latestFirst id).drop offset).take limit).map BucketLogRow.toEntry)

/-! ## What the pages are for -/

/-- The columns of heights are `INTEGER`, and no two rows of a bucket have the same. -/
structure MeetsSchema (db : Database) : Prop where
  range : ∀ row ∈ db.bucketLog, -2 ^ 63 ≤ row.height ∧ row.height < 2 ^ 63
  unique : db.bucketLog.Pairwise
    (fun row row' => row.bucketId = row'.bucketId → row.height ≠ row'.height)

/-- The entries are those of the bucket, each once, in descending order of the heights. -/
def IsHistory (db : Database) (id : Uuid) (entries : List BucketLogEntry) : Prop :=
  ∃ rows : List BucketLogRow, rows.Perm (db.rowsOf id) ∧
    rows.Pairwise (fun row row' => row'.height < row.height) ∧
      entries = rows.map BucketLogRow.toEntry

/-- The pages that a caller gets who asks for one after the other, up to an empty one. -/
structure ArePages (checks : Bool) (db : Database) (id : Uuid) (pageSize : ℕ)
    (pages : List (List BucketLogEntry)) : Prop where
  few : pages.length < 2 ^ 32
  page : ∀ (number : ℕ) (entries : List BucketLogEntry), pages[number]? = some entries →
    db.getBucketLogs checks id number pageSize = some entries ∧ entries ≠ []
  stop : db.getBucketLogs checks id pages.length pageSize = some []

/-- All pages together are the history. -/
def LosesNothing (checks : Bool) (db : Database) (id : Uuid) (pageSize : ℕ) : Prop :=
  ∃ pages, db.ArePages checks id pageSize pages ∧ db.IsHistory id pages.flatten

/-! ## The history -/

section

variable {db : Database} {id : Uuid}

theorem MeetsSchema.new (namesConstraints : Bool) :
    (Database.new namesConstraints).MeetsSchema :=
  ⟨nofun, List.Pairwise.nil⟩

/-- The table refuses a second row at a height. -/
theorem MeetsSchema.append (h : db.MeetsSchema) (name : Name) (current : Link)
    (previous : Option Link) (height : ℕ) (published : Bool) :
    (db.append id name current previous height published).2.MeetsSchema := by
  unfold Database.append
  split
  · exact h
  · dsimp only
    split_ifs with hviolates
    · exact h
    · constructor
      · intro row hrow
        rcases List.mem_append.mp hrow with hold | hnew
        · exact h.range row hold
        · rw [List.mem_singleton.mp hnew]
          have hlow := Int.le_bmod (x := height) (m := 2 ^ 64) (by decide)
          have hhigh := Int.bmod_lt (x := height) (m := 2 ^ 64) (by decide)
          dsimp only [toI64]
          omega
      · apply List.pairwise_append.mpr
        refine ⟨h.unique, List.pairwise_singleton _ _, ?_⟩
        intro row hrow new hnew hsame hheight
        rw [List.mem_singleton.mp hnew] at hsame hheight
        apply hviolates
        exact List.any_eq_true.mpr ⟨row, hrow, decide_eq_true ⟨hsame, Or.inl hheight⟩⟩

theorem MeetsSchema.runCalls (h : db.MeetsSchema) (calls : List AppendCall) :
    (JaxFs.runCalls db calls).MeetsSchema := by
  induction calls generalizing db with
  | nil => exact h
  | cons call rest ih => exact ih (h.append _ _ _ _ _)

theorem perm_latestFirst : (db.latestFirst id).Perm (db.rowsOf id) := List.mergeSort_perm _ _

theorem MeetsSchema.pairwise_latestFirst (h : db.MeetsSchema) :
    (db.latestFirst id).Pairwise (fun row row' => row'.height < row.height) := by
  have hsorted : (db.latestFirst id).Pairwise (fun row row' => row'.height ≤ row.height) := by
    have hmerge := @List.pairwise_mergeSort _
      (fun row row' : BucketLogRow => decide (row'.height ≤ row.height))
      (fun a b c hab hbc => by
        rw [decide_eq_true_eq] at hab hbc ⊢
        exact hbc.trans hab)
      (fun a b => by
        rw [Bool.or_eq_true, decide_eq_true_eq, decide_eq_true_eq]
        exact le_total _ _)
      (db.rowsOf id)
    exact hmerge.imp (fun hle => of_decide_eq_true hle)
  have hrows : (db.rowsOf id).Pairwise (fun row row' => row.height ≠ row'.height) := by
    refine (h.unique.filter _).imp_of_mem ?_
    intro row row' hrow hrow' hne
    have hid := of_decide_eq_true (List.mem_filter.mp hrow).2
    have hid' := of_decide_eq_true (List.mem_filter.mp hrow').2
    exact hne (hid.trans hid'.symm)
  have hdistinct : (db.latestFirst id).Pairwise (fun row row' => row.height ≠ row'.height) :=
    (perm_latestFirst.pairwise_iff (fun hne => hne.symm)).mpr hrows
  refine (hsorted.and hdistinct).imp ?_
  rintro row row' ⟨hle, hne⟩
  exact lt_of_le_of_ne hle hne.symm

/-- The rows in the order of the query. -/
def history (db : Database) (id : Uuid) : List BucketLogEntry :=
  (db.latestFirst id).map BucketLogRow.toEntry

theorem length_history : (db.history id).length = (db.rowsOf id).length :=
  (List.length_map _).trans perm_latestFirst.length_eq

/-- There is one history. -/
theorem MeetsSchema.isHistory_iff (h : db.MeetsSchema) {entries : List BucketLogEntry} :
    db.IsHistory id entries ↔ entries = db.history id := by
  constructor
  · rintro ⟨rows, hperm, hsorted, rfl⟩
    have hantisymm : Std.Antisymm (fun row row' : BucketLogRow => row'.height < row.height) :=
      ⟨fun _ _ hlt hlt' => absurd hlt hlt'.not_gt⟩
    have hirrefl : Std.Irrefl (fun row row' : BucketLogRow => row'.height < row.height) :=
      ⟨fun _ => lt_irrefl _⟩
    apply congrArg
    apply hsorted.eq_of_mem_iff h.pairwise_latestFirst
    intro row
    exact hperm.mem_iff.trans perm_latestFirst.mem_iff.symm
  · rintro rfl
    exact ⟨_, perm_latestFirst, h.pairwise_latestFirst, rfl⟩

theorem toU64_inj {m n : ℤ} (hm : -2 ^ 63 ≤ m ∧ m < 2 ^ 63) (hn : -2 ^ 63 ≤ n ∧ n < 2 ^ 63)
    (h : toU64 m = toU64 n) : m = n := by
  unfold toU64 at h
  omega

theorem MeetsSchema.nodup_history (h : db.MeetsSchema) : (db.history id).Nodup := by
  rw [history, List.Nodup, List.pairwise_map]
  refine h.pairwise_latestFirst.imp_of_mem ?_
  intro row row' hrow hrow' hlt heq
  have hmem := (List.mem_filter.mp (perm_latestFirst.mem_iff.mp hrow)).1
  have hmem' := (List.mem_filter.mp (perm_latestFirst.mem_iff.mp hrow')).1
  have hheight := congrArg BucketLogEntry.height heq
  exact hlt.ne' (toU64_inj (h.range row hmem) (h.range row' hmem') hheight)

end

/-! ## Pages -/

section

variable {checks : Bool} {db : Database} {id : Uuid} {page pageSize : ℕ}

theorem getBucketLogs_of_offset {offset : ℕ}
    (h : unsigned checks 32 (page * pageSize) = some offset) :
    db.getBucketLogs checks id page pageSize =
      some (((db.history id).drop offset).take (min pageSize 100)) := by
  unfold getBucketLogs history
  rw [h, ← List.map_drop, ← List.map_take]
  rfl

theorem getBucketLogs_of_lt (h : page * pageSize < 2 ^ 32) :
    db.getBucketLogs checks id page pageSize =
      some (((db.history id).drop (page * pageSize)).take (min pageSize 100)) :=
  getBucketLogs_of_offset (unsigned_of_lt h)

theorem window_eq_nil_iff {offset : ℕ} (hpos : 0 < pageSize) :
    ((db.history id).drop offset).take (min pageSize 100) = [] ↔
      (db.rowsOf id).length ≤ offset := by
  rw [List.take_eq_nil_iff, List.drop_eq_nil_iff, length_history]
  constructor
  · rintro (hlimit | hend)
    · omega
    · exact hend
  · exact Or.inr

/-- Pages of at most 100 entries whose starts fit are the history. -/
theorem MeetsSchema.losesNothing_of_page (h : db.MeetsSchema) (hpos : 0 < pageSize)
    (hsmall : pageSize ≤ 100) (hlast : (db.rowsOf id).length ≤ page * pageSize)
    (hlt : page * pageSize < 2 ^ 32) : db.LosesNothing checks id pageSize := by
  -- the first page that is empty
  have hexists : ∃ count, (db.rowsOf id).length ≤ count * pageSize := ⟨page, hlast⟩
  obtain ⟨count, hcount, hfirst⟩ : ∃ count, (db.rowsOf id).length ≤ count * pageSize ∧
      ∀ number < count, ¬ (db.rowsOf id).length ≤ number * pageSize :=
    ⟨Nat.find hexists, Nat.find_spec hexists, fun _ => Nat.find_min hexists⟩
  have hle : count ≤ page := by
    by_contra hgt
    exact hfirst page (not_le.mp hgt) hlast
  have hbound : ∀ number ≤ count, number * pageSize < 2 ^ 32 := fun number hnumber =>
    (Nat.mul_le_mul_right pageSize (hnumber.trans hle)).trans_lt hlt
  have hlimit : min pageSize 100 = pageSize := min_eq_left hsmall
  refine ⟨(List.range count).map (fun number =>
    ((db.history id).drop (number * pageSize)).take pageSize), ?_, ?_⟩
  · constructor
    · rw [List.length_map, List.length_range]
      exact (Nat.le_mul_of_pos_right count hpos).trans_lt (hbound count le_rfl)
    · intro number entries hentries
      obtain ⟨hnumber, rfl⟩ := List.getElem?_eq_some_iff.mp hentries
      rw [List.length_map, List.length_range] at hnumber
      rw [List.getElem_map, List.getElem_range, getBucketLogs_of_lt (hbound number hnumber.le),
        hlimit]
      refine ⟨rfl, fun hnil => hfirst number hnumber ?_⟩
      apply (window_eq_nil_iff hpos).mp
      rw [hlimit]
      exact hnil
    · rw [List.length_map, List.length_range, getBucketLogs_of_lt (hbound count le_rfl)]
      exact congrArg some ((window_eq_nil_iff hpos).mpr hcount)
  · rw [h.isHistory_iff, flatten_windows, List.take_of_length_le (length_history.trans_le hcount)]

/-- A bucket with at most 100 entries is on the first page of a greater size. -/
theorem MeetsSchema.losesNothing_of_length (h : db.MeetsSchema) (hlarge : 100 < pageSize)
    (hsize : pageSize < 2 ^ 32) (hshort : (db.rowsOf id).length ≤ 100) :
    db.LosesNothing checks id pageSize := by
  have hpos : 0 < pageSize := by omega
  have hzero : db.getBucketLogs checks id 0 pageSize = some (db.history id) := by
    rw [getBucketLogs_of_lt (by omega), Nat.zero_mul, List.drop_zero, min_eq_right hlarge.le,
      List.take_of_length_le (length_history.trans_le hshort)]
  cases hrows : db.history id with
  | nil =>
      refine ⟨[], ⟨by decide, nofun, hzero.trans (congrArg some hrows)⟩, ?_⟩
      rw [h.isHistory_iff, hrows, List.flatten_nil]
  | cons first rest =>
      refine ⟨[db.history id], ⟨(by decide : 1 < 2 ^ 32), ?_, ?_⟩, ?_⟩
      · intro number entries hentries
        rcases number with _ | number
        · cases hentries
          exact ⟨hzero, hrows ▸ List.cons_ne_nil _ _⟩
        · cases hentries
      · rw [List.length_singleton, getBucketLogs_of_lt (by omega), Nat.one_mul]
        exact congrArg some ((window_eq_nil_iff hpos).mpr (by omega))
      · rw [h.isHistory_iff, List.flatten_singleton]

theorem getBucketLogs_true_of_le (h : 2 ^ 32 ≤ page * pageSize) :
    db.getBucketLogs true id page pageSize = none := by
  have hpanic : unsigned true 32 (page * pageSize) = none := by
    rw [unsigned, if_neg h.not_gt, if_pos rfl]
  unfold getBucketLogs
  rw [hpanic]
  rfl

theorem ArePages.eq_window {pages : List (List BucketLogEntry)}
    (h : db.ArePages checks id pageSize pages) {entries : List BucketLogEntry}
    (hentries : pages[page]? = some entries) (hlt : page * pageSize < 2 ^ 32) :
    entries = ((db.history id).drop (page * pageSize)).take (min pageSize 100) := by
  have hread := (h.page page entries hentries).1
  rw [getBucketLogs_of_lt hlt] at hread
  exact (Option.some.inj hread).symm

theorem ArePages.exists_page {pages : List (List BucketLogEntry)}
    (h : db.ArePages checks id pageSize pages) (hle : page ≤ pages.length) :
    ∃ entries, db.getBucketLogs checks id page pageSize = some entries ∧
      (entries ≠ [] → pages[page]? = some entries) := by
  rcases hle.lt_or_eq with hlt | rfl
  · have hentries : pages[page]? = some pages[page] := List.getElem?_eq_getElem hlt
    exact ⟨pages[page], (h.page page _ hentries).1, fun _ => hentries⟩
  · exact ⟨[], h.stop, fun hne => absurd rfl hne⟩

/-- Pages that are the history start below `2 ^ 32`.  Behind that the offset would come back
to the entries of the first page. -/
theorem MeetsSchema.starts_fit (h : db.MeetsSchema) (hsmall : pageSize ≤ 100)
    {pages : List (List BucketLogEntry)} (hpages : db.ArePages checks id pageSize pages)
    (hhistory : pages.flatten = db.history id) : pages.length * pageSize < 2 ^ 32 := by
  by_contra hlast
  -- the first page that starts behind the 32 bits
  have hexists : ∃ number, 2 ^ 32 ≤ number * pageSize := ⟨pages.length, not_lt.mp hlast⟩
  obtain ⟨number, hwraps, hfirst⟩ : ∃ number, 2 ^ 32 ≤ number * pageSize ∧
      ∀ before < number, ¬ 2 ^ 32 ≤ before * pageSize :=
    ⟨Nat.find hexists, Nat.find_spec hexists, fun _ => Nat.find_min hexists⟩
  have hnumber : number ≤ pages.length := by
    by_contra hgt
    exact hfirst pages.length (not_le.mp hgt) (not_lt.mp hlast)
  obtain ⟨entries, hread, hentries⟩ := hpages.exists_page hnumber
  cases checks with
  | true =>
      rw [getBucketLogs_true_of_le hwraps] at hread
      cases hread
  | false =>
      rw [getBucketLogs_of_offset unsigned_false, Option.some.injEq, min_eq_left hsmall] at hread
      have htwo : 2 ≤ number := by
        by_contra hlt
        have hle := Nat.mul_le_mul_right pageSize (Nat.le_of_lt_succ (not_le.mp hlt))
        omega
      have hoffset : number * pageSize % 2 ^ 32 < pageSize := by
        have hbefore := not_le.mp (hfirst (number - 1) (by omega))
        rw [Nat.sub_one_mul] at hbefore
        omega
      -- the second page is there, so the history goes on behind the first one
      have hzero : pages[0]? = some pages[0] := List.getElem?_eq_getElem (by omega)
      have hone : pages[1]? = some pages[1] := List.getElem?_eq_getElem (by omega)
      have hlength : pageSize < (db.history id).length := by
        have hne := (hpages.page 1 _ hone).2
        rw [hpages.eq_window hone (by omega), Nat.one_mul] at hne
        by_contra hle
        exact hne (by rw [List.drop_of_length_le (not_lt.mp hle), List.take_nil])
      have hplace := List.getElem?_eq_getElem (hoffset.trans hlength)
      have hagain : (db.history id)[number * pageSize % 2 ^ 32] ∈ entries := by
        rw [← hread]
        exact mem_window hplace le_rfl (by omega)
      have hmem : (db.history id)[number * pageSize % 2 ^ 32] ∈ pages[0] := by
        rw [hpages.eq_window hzero (by omega), Nat.zero_mul, min_eq_left hsmall]
        exact mem_window hplace (Nat.zero_le _) (by omega)
      exact not_mem_of_nodup_flatten (hhistory ▸ h.nodup_history) (by omega) hzero
        (hentries (List.ne_nil_of_mem hagain)) hmem hagain

/-- Where the pages are the history, one of them starts behind its end. -/
theorem MeetsSchema.exists_page (h : db.MeetsSchema) (hpos : 0 < pageSize)
    (hsmall : pageSize ≤ 100) (hpages : db.LosesNothing checks id pageSize) :
    ∃ page, (db.rowsOf id).length ≤ page * pageSize ∧ page * pageSize < 2 ^ 32 := by
  obtain ⟨pages, hpages, hhistory⟩ := hpages
  rw [h.isHistory_iff] at hhistory
  have hlast := h.starts_fit hsmall hpages hhistory
  have hstop := hpages.stop
  rw [getBucketLogs_of_lt hlast, Option.some.injEq, window_eq_nil_iff hpos] at hstop
  exact ⟨pages.length, hstop, hlast⟩

/-- Where they are and the size is above the limit, the first page has everything. -/
theorem MeetsSchema.length_le_of_losesNothing (h : db.MeetsSchema) (hlarge : 100 < pageSize)
    (hsize : pageSize < 2 ^ 32) (hpages : db.LosesNothing checks id pageSize) :
    (db.rowsOf id).length ≤ 100 := by
  obtain ⟨pages, hpages, hhistory⟩ := hpages
  rw [h.isHistory_iff] at hhistory
  by_contra hlong
  have hlength : 100 < (db.history id).length := by
    rw [length_history]
    omega
  match pages, hpages, hhistory with
  | [], _, hhistory =>
      rw [← hhistory] at hlength
      cases hlength
  | [first], hpages, hhistory =>
      have hfirst : first = ((db.history id).drop (0 * pageSize)).take (min pageSize 100) :=
        hpages.eq_window rfl (by omega)
      have htake := List.length_take_le (min pageSize 100) ((db.history id).drop (0 * pageSize))
      rw [← hfirst] at htake
      rw [← hhistory, List.flatten_singleton] at hlength
      omega
  | first :: second :: rest, hpages, hhistory =>
      have hzero : first = ((db.history id).drop (0 * pageSize)).take (min pageSize 100) :=
        hpages.eq_window rfl (by omega)
      have hfirst : first.length = 100 := by
        rw [hzero, Nat.zero_mul, List.drop_zero, List.length_take, min_eq_right hlarge.le,
          min_eq_left hlength.le]
      have hsecond : second = ((db.history id).drop (1 * pageSize)).take (min pageSize 100) :=
        hpages.eq_window rfl (by omega)
      have hne : second ≠ [] := (hpages.page 1 second rfl).2
      -- the entry behind the first page is not the one that comes next
      have hplace := calc
        (db.history id)[100]? = (first ++ (second ++ rest.flatten))[100]? := by
          rw [← hhistory, List.flatten_cons, List.flatten_cons]
        _ = second[0]? := by
          rw [List.getElem?_append_right hfirst.le, hfirst, Nat.sub_self,
            List.getElem?_append_left (List.length_pos_of_ne_nil hne)]
        _ = (db.history id)[pageSize]? := by
          rw [hsecond, List.getElem?_take_of_lt (by omega), List.getElem?_drop, Nat.one_mul,
            Nat.add_zero]
      exact hlarge.ne ((List.getElem?_inj hlength h.nodup_history).mp hplace)

/-- Every page number has a start that fits for pages of one entry only. -/
theorem forall_page_iff (hpos : 0 < pageSize) :
    (∀ page < 2 ^ 32, ∃ entries, db.getBucketLogs true id page pageSize = some entries) ↔
      pageSize = 1 := by
  constructor
  · intro hpages
    by_contra hne
    have hwraps : 2 ^ 32 ≤ (2 ^ 32 - 1) * pageSize := by omega
    obtain ⟨entries, hread⟩ := hpages (2 ^ 32 - 1) (by decide)
    rw [getBucketLogs_true_of_le hwraps] at hread
    cases hread
  · rintro rfl page hpage
    exact ⟨_, getBucketLogs_of_lt (by omega)⟩

/-- Pages lose nothing if and only if one of at most 100 entries starts behind the end of the
log and below `2 ^ 32`, or the first page holds all of it; and no page number overflows if and
only if pages have one entry. -/
theorem history_paging_iff (checks : Bool) (h : db.MeetsSchema) (id : Uuid) (hpos : 0 < pageSize)
    (hsize : pageSize < 2 ^ 32) :
    (db.LosesNothing checks id pageSize ↔
      (pageSize ≤ 100 ∧ ∃ page, (db.rowsOf id).length ≤ page * pageSize ∧
          page * pageSize < 2 ^ 32) ∨
        (100 < pageSize ∧ (db.rowsOf id).length ≤ 100)) ∧
      ((∀ page < 2 ^ 32, ∃ entries, db.getBucketLogs true id page pageSize = some entries) ↔
        pageSize = 1) := by
  refine ⟨?_, forall_page_iff hpos⟩
  constructor
  · intro hpages
    rcases le_or_gt pageSize 100 with hsmall | hlarge
    · exact Or.inl ⟨hsmall, h.exists_page hpos hsmall hpages⟩
    · exact Or.inr ⟨hlarge, h.length_le_of_losesNothing hlarge hsize hpages⟩
  · rintro (⟨hsmall, page, hlast, hlt⟩ | ⟨hlarge, hshort⟩)
    · exact h.losesNothing_of_page hpos hsmall hlast hlt
    · exact h.losesNothing_of_length hlarge hsize hshort

/-- Pages of 50 entries, which the desktop asks for, of a bucket that was created. -/
theorem history_paging_of_desktop :
    let db := runCalls (Database.new true) [⟨⟨⟨7⟩, Link.default, none, 0, false⟩, [], by decide⟩]
    (db.LosesNothing true ⟨7⟩ 50 ↔
      (50 ≤ 100 ∧ ∃ page, (db.rowsOf ⟨7⟩).length ≤ page * 50 ∧ page * 50 < 2 ^ 32) ∨
        (100 < 50 ∧ (db.rowsOf ⟨7⟩).length ≤ 100)) ∧
      ((∀ page < 2 ^ 32, ∃ entries, db.getBucketLogs true ⟨7⟩ page 50 = some entries) ↔
        50 = 1) :=
  history_paging_iff true ((MeetsSchema.new true).runCalls _) ⟨7⟩ (by decide) (by decide)

/-- A version of a bucket, on top of the one below it. -/
def versionRow (height : ℕ) : BucketLogRow where
  bucketId := ⟨7⟩
  name := []
  currentLink := ⟨0, ⟨List.replicate height 0⟩⟩
  previousLink := if height = 0 then none else some ⟨0, ⟨List.replicate (height - 1) 0⟩⟩
  height := height
  published := false

/-- Of 101 versions pages of 200 leave out one, and page `2 ^ 31` of two versions cannot be
asked for. -/
theorem history_paging_loses_version :
    (∀ checks, ¬ (Database.mk ((List.range 101).map versionRow) true).LosesNothing checks ⟨7⟩ 200) ∧
      (Database.mk ((List.range 101).map versionRow) true).getBucketLogs true ⟨7⟩ (2 ^ 31) 2 =
        none := by
  have hschema : (Database.mk ((List.range 101).map versionRow) true).MeetsSchema := by
    constructor
    · intro row hrow
      obtain ⟨height, hheight, rfl⟩ := List.mem_map.mp hrow
      have hlt := List.mem_range.mp hheight
      change -2 ^ 63 ≤ (height : ℤ) ∧ (height : ℤ) < 2 ^ 63
      omega
    · apply List.pairwise_map.mpr
      refine List.pairwise_lt_range.imp ?_
      intro height height' hlt _ heq
      exact hlt.ne (Int.ofNat_inj.mp heq)
  have hrows : (Database.mk ((List.range 101).map versionRow) true).rowsOf ⟨7⟩ =
      (List.range 101).map versionRow := by
    apply List.filter_eq_self.mpr
    intro row hrow
    obtain ⟨height, -, rfl⟩ := List.mem_map.mp hrow
    exact decide_eq_true rfl
  constructor
  · intro checks hpages
    have hshort := hschema.length_le_of_losesNothing (by decide) (by decide) hpages
    rw [hrows, List.length_map, List.length_range] at hshort
    omega
  · exact getBucketLogs_true_of_le (by decide)

end

end Database

end JaxFs

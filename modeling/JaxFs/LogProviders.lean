import JaxFs.Database
import JaxFs.LogRecords

/-!
# The two providers side by side

The in-memory provider records forks.  The table of the SQLite provider admits one
row for each height of a bucket and one for each link.  Both start empty and are given
the same calls.
-/

namespace JaxFs

open BucketLogProvider LogEntry MemoryBucketLogProviderInner

/-! ## Runs of the in-memory provider -/

theorem prefix_recordCalls (entries : List LogEntry) (calls : List AppendCall) :
    entries <+: recordCalls entries calls := by
  induction calls generalizing entries with
  | nil => exact List.prefix_rfl
  | cons call rest ih =>
      unfold recordCalls
      split_ifs
      · exact (List.prefix_append entries [call.entry]).trans (ih _)
      · exact ih entries

theorem recorded_recordCalls {entries : List LogEntry} (h : Recorded entries)
    (calls : List AppendCall) : Recorded (recordCalls entries calls) := by
  induction calls generalizing entries with
  | nil => exact h
  | cons call rest ih =>
      unfold recordCalls
      split_ifs with hadmitted
      · refine ih (AllowedFrom.append_iff.mpr ⟨h, ?_, trivial⟩)
        rw [Set.empty_union]
        exact hadmitted
      · exact ih h

theorem mem_recordCalls {entries : List LogEntry} {calls : List AppendCall} {e : LogEntry}
    (h : e ∈ recordCalls entries calls) :
    e ∈ entries ∨ ∃ call ∈ calls, call.entry = e := by
  induction calls generalizing entries with
  | nil => exact Or.inl h
  | cons call rest ih =>
      unfold recordCalls at h
      split_ifs at h
      · rcases ih h with hmem | ⟨other, hother, heq⟩
        · rcases List.mem_append.mp hmem with hold | hnew
          · exact Or.inl hold
          · exact Or.inr ⟨call, List.mem_cons_self, (List.mem_singleton.mp hnew).symm⟩
        · exact Or.inr ⟨other, List.mem_cons_of_mem _ hother, heq⟩
      · rcases ih h with hmem | ⟨other, hother, heq⟩
        · exact Or.inl hmem
        · exact Or.inr ⟨other, List.mem_cons_of_mem _ hother, heq⟩

/-- The entries are of different buckets, or differ in height and in link. -/
def LogEntry.Unforked (e f : LogEntry) : Prop :=
  e.bucketId = f.bucketId → e.height ≠ f.height ∧ e.link ≠ f.link

theorem LogEntry.not_unforked_iff {e f : LogEntry} :
    ¬ e.Unforked f ↔ e.bucketId = f.bucketId ∧ (e.height = f.height ∨ e.link = f.link) := by
  unfold Unforked
  tauto

namespace Recorded

theorem supported {entries : List LogEntry} (h : Recorded entries) {e : LogEntry}
    (he : e ∈ entries) : e.Supported {f | f ∈ entries} := by
  obtain ⟨before, after, rfl⟩ := List.append_of_mem he
  have hadmitted := AllowedFrom.allows_of_append_cons h
  refine hadmitted.2.mono ?_
  intro f hf
  rw [Set.empty_union] at hf
  exact List.mem_append_left _ hf

/-- Below an entry its bucket has one at every height. -/
theorem exists_at_height {entries : List LogEntry} (h : Recorded entries) {e : LogEntry}
    (he : e ∈ entries) {height : ℕ} (hle : height ≤ e.height) :
    ∃ f ∈ entries, f.bucketId = e.bucketId ∧ f.height = height := by
  induction hheight : e.height generalizing e with
  | zero => exact ⟨e, he, rfl, by omega⟩
  | succ below ih =>
      by_cases htop : height = e.height
      · exact ⟨e, he, rfl, htop.symm⟩
      · have hsupported := h.supported he
        unfold Supported at hsupported
        cases hprevious : e.previous with
        | none =>
            rw [hprevious] at hsupported
            omega
        | some link =>
            rw [hprevious] at hsupported
            obtain ⟨f, hf, hid, _, hnext⟩ := hsupported
            obtain ⟨g, hg, hgid, hat⟩ := ih hf (by omega) (by omega)
            exact ⟨g, hg, hgid.trans hid, hat⟩

end Recorded

namespace MemoryBucketLogProvider

/-- After the calls the log holds what they record, and has accepted those. -/
theorem records_runCalls (log : MemoryBucketLogProvider) {entries : List LogEntry}
    (h : log.inner.Records entries) (calls : List AppendCall) :
    (runCalls log calls).inner.Records (recordCalls entries calls) ∧
      verdicts log calls = acceptances entries calls := by
  induction calls generalizing log entries with
  | nil => exact ⟨h, rfl⟩
  | cons call rest ih =>
      unfold runCalls recordCalls verdicts acceptances
      by_cases hadmitted : call.entry.Admitted {f | f ∈ entries}
      · obtain ⟨hok, hrecords⟩ := h.append_of_admitted call.name hadmitted
        obtain ⟨hrun, hverdicts⟩ := ih (call.run log).2 hrecords
        have hisOk : (call.run log).1.isOk = true := by
          rw [show (call.run log).1 = .ok () from hok]
          rfl
        rw [if_pos hadmitted, if_pos hadmitted, hisOk, hverdicts]
        exact ⟨hrun, rfl⟩
      · obtain ⟨⟨error, herror⟩, hrecords⟩ :=
          h.append_of_not_admitted call.name hadmitted
        obtain ⟨hrun, hverdicts⟩ := ih (call.run log).2 hrecords
        have hisOk : (call.run log).1.isOk = false := by
          rw [show (call.run log).1 = .error error from herror]
          rfl
        rw [if_neg hadmitted, if_neg hadmitted, hisOk, hverdicts]
        exact ⟨hrun, rfl⟩

theorem contains_entries_append (inner : MemoryBucketLogProviderInner) (call : AppendCall)
    (id : Uuid) :
    (inner.append call.entry.bucketId call.name call.entry.link call.entry.previous
      call.entry.height call.entry.published).2.entries.contains id = true ↔
      call.entry.bucketId = id ∨ inner.entries.contains id = true := by
  unfold MemoryBucketLogProviderInner.append
  cases hcheck : appendError ((inner.entries.get? call.entry.bucketId).getD
      KeyedMap.empty) call.entry.link call.entry.previous call.entry.height with
  | some error =>
      simp only [hcheck]
      exact FinMap.contains_put_iff
  | none =>
      simp only [hcheck]
      rw [FinMap.contains_put_iff, FinMap.contains_put_iff, ← or_assoc, or_self]

/-- A bucket exists once a call has named it, whatever became of the call. -/
theorem contains_runCalls (log : MemoryBucketLogProvider) (calls : List AppendCall)
    (id : Uuid) :
    (runCalls log calls).inner.entries.contains id = true ↔
      (∃ call ∈ calls, call.entry.bucketId = id) ∨
        log.inner.entries.contains id = true := by
  induction calls generalizing log with
  | nil => simp [runCalls]
  | cons call rest ih =>
      unfold runCalls
      rw [ih]
      have hstep := contains_entries_append log.inner call id
      simp only [List.mem_cons, exists_eq_or_imp]
      constructor
      · rintro (hrest | hcontains)
        · exact Or.inl (Or.inr hrest)
        · rcases hstep.mp hcontains with hcall | hold
          · exact Or.inl (Or.inl hcall)
          · exact Or.inr hold
      · rintro ((hcall | hrest) | hold)
        · exact Or.inr (hstep.mpr (Or.inl hcall))
        · exact Or.inl hrest
        · exact Or.inr (hstep.mpr (Or.inr hold))

theorem mem_listBuckets_iff (inner : MemoryBucketLogProviderInner) (id : Uuid) :
    id ∈ inner.listBuckets ↔ inner.entries.contains id = true := by
  rw [KeyedMap.contains_iff, listBuckets, List.mem_map]
  rfl

end MemoryBucketLogProvider

/-! ## Runs of the SQLite provider -/

namespace Database

/-- The database of a fresh installation. -/
def new (namesConstraints : Bool) : Database := ⟨[], namesConstraints⟩

/-- `SELECT DISTINCT bucket_id … ORDER BY bucket_id`. -/
def listBuckets (db : Database) : List Uuid :=
  (db.bucketLog.map BucketLogRow.bucketId).dedup.mergeSort (fun id id' => decide (id ≤ id'))

/-- What the queries of the provider read of a row. -/
def slot (row : BucketLogRow) : Uuid × Link × ℤ :=
  (row.bucketId, row.currentLink, row.height)

def slotOf (e : LogEntry) : Uuid × Link × ℤ := (e.bucketId, e.link, toI64 e.height)

/-- The table holds these entries. -/
structure Rows (db : Database) (entries : List LogEntry) : Prop where
  slots : db.bucketLog.map slot = entries.map slotOf
  inRange : ∀ e ∈ entries, e.height < 2 ^ 64

theorem toI64_eq {n : ℕ} (hn : n < 2 ^ 64) :
    toI64 n = if n < 2 ^ 63 then (n : ℤ) else (n : ℤ) - 2 ^ 64 := by
  unfold toI64 Int.bmod
  have hmod : (n : ℤ) % ((2 ^ 64 : ℕ) : ℤ) = n := Int.emod_eq_of_lt (by omega) (by omega)
  rw [hmod]
  dsimp only
  split_ifs <;> omega

theorem toI64_inj {n m : ℕ} (hn : n < 2 ^ 64) (hm : m < 2 ^ 64) :
    toI64 n = toI64 m ↔ n = m := by
  rw [toI64_eq hn, toI64_eq hm]
  split_ifs <;> omega

theorem toU64_toI64 {n : ℕ} (hn : n < 2 ^ 64) : toU64 (toI64 n) = n := by
  rw [toI64_eq hn]
  unfold toU64
  split_ifs <;> omega

section

variable {db : Database} {entries : List LogEntry} {e : LogEntry} {name : Name}

@[simp] theorem slotOf_fst (e : LogEntry) : (slotOf e).1 = e.bucketId := rfl

@[simp] theorem slotOf_link (e : LogEntry) : (slotOf e).2.1 = e.link := rfl

@[simp] theorem slotOf_height (e : LogEntry) : (slotOf e).2.2 = toI64 e.height := by
  simp only [slotOf]

@[simp] theorem slot_fst (row : BucketLogRow) : (slot row).1 = row.bucketId := rfl

@[simp] theorem slot_link (row : BucketLogRow) : (slot row).2.1 = row.currentLink := rfl

@[simp] theorem slot_height (row : BucketLogRow) : (slot row).2.2 = row.height := rfl

theorem Rows.exists_iff (h : db.Rows entries) (pred : Uuid × Link × ℤ → Prop) :
    (∃ row ∈ db.bucketLog, pred (slot row)) ↔ ∃ e ∈ entries, pred (slotOf e) := by
  have hmem : (∃ s ∈ db.bucketLog.map slot, pred s) ↔
      ∃ s ∈ entries.map slotOf, pred s := by
    rw [h.slots]
  simpa using hmem

/-- The checks before the insertion look for the previous entry. -/
theorem Rows.appendError_eq_none_iff (h : db.Rows entries) (he : e.height < 2 ^ 64) :
    db.appendError e.bucketId e.link e.previous e.height = none ↔
      e.Supported {f | f ∈ entries} := by
  unfold appendError Supported
  cases hprevious : e.previous with
  | none => simp
  | some prevLink =>
      dsimp only
      by_cases hzero : e.height = 0
      · rw [if_pos hzero]
        constructor
        · intro habsurd
          contradiction
        · rintro ⟨below, _, hextends⟩
          have hheight := hextends.2.2
          omega
      · have hfound := h.exists_iff (fun s => s.1 = e.bucketId ∧ s.2.1 = prevLink ∧
          s.2.2 = toI64 (e.height - 1))
        simp only [slotOf_fst, slotOf_link, slotOf_height, slot_fst, slot_link,
          slot_height] at hfound
        have hbelow : (∃ f ∈ entries, f.bucketId = e.bucketId ∧ f.link = prevLink ∧
            toI64 f.height = toI64 (e.height - 1)) ↔
            ∃ below ∈ ({f | f ∈ entries} : Set LogEntry), below.Extends e := by
          constructor
          · rintro ⟨f, hf, hid, hlink, hheight⟩
            rw [toI64_inj (h.inRange f hf) (by omega)] at hheight
            exact ⟨f, hf, hid, by rw [hprevious, hlink], by omega⟩
          · rintro ⟨f, hf, hid, hlink, hheight⟩
            rw [hprevious] at hlink
            refine ⟨f, hf, hid, (Option.some.inj hlink).symm, ?_⟩
            rw [show e.height - 1 = f.height by omega]
        rw [if_neg hzero, ← hbelow, ← hfound]
        simp only [List.any_eq_true, decide_eq_true_eq]
        constructor
        · intro hcheck
          split_ifs at hcheck with hrow
          exact hrow
        · intro hrow
          rw [if_pos hrow]

theorem Rows.violatesUnique_iff (h : db.Rows entries) (he : e.height < 2 ^ 64) :
    db.violatesUnique ⟨e.bucketId, name, e.link, e.previous, toI64 e.height,
        e.published⟩ = true ↔ ∃ f ∈ entries, ¬ f.Unforked e := by
  have hfound := h.exists_iff (fun s => s.1 = e.bucketId ∧
    (s.2.2 = toI64 e.height ∨ s.2.1 = e.link))
  simp only [slotOf_fst, slotOf_link, slotOf_height, slot_fst, slot_link,
    slot_height] at hfound
  have hforked : (∃ f ∈ entries, f.bucketId = e.bucketId ∧
      (toI64 f.height = toI64 e.height ∨ f.link = e.link)) ↔
      ∃ f ∈ entries, ¬ f.Unforked e := by
    refine exists_congr (fun f => and_congr_right (fun hf => ?_))
    rw [toI64_inj (h.inRange f hf) he, not_unforked_iff]
  rw [← hforked, ← hfound]
  unfold violatesUnique
  simp only [List.any_eq_true, decide_eq_true_eq]

/-- The table takes a supported entry of a new height and a new link. -/
theorem Rows.append_of_unforked (h : db.Rows entries) (name : Name) (he : e.height < 2 ^ 64)
    (hsupported : e.Supported {f | f ∈ entries}) (hunforked : ∀ f ∈ entries, f.Unforked e) :
    (db.append e.bucketId name e.link e.previous e.height e.published).1 = .ok () ∧
      (db.append e.bucketId name e.link e.previous e.height e.published).2.Rows
        (entries ++ [e]) := by
  have hviolates : ¬ db.violatesUnique ⟨e.bucketId, name, e.link, e.previous,
      toI64 e.height, e.published⟩ = true := by
    rw [h.violatesUnique_iff he]
    rintro ⟨f, hf, hforked⟩
    exact hforked (hunforked f hf)
  unfold append
  rw [(h.appendError_eq_none_iff he).mpr hsupported]
  dsimp only
  rw [if_neg hviolates]
  refine ⟨rfl, ?_, ?_⟩
  · rw [List.map_append, List.map_append, h.slots, List.map_singleton, List.map_singleton]
    simp only [slot, slotOf]
  · intro f hf
    rcases List.mem_append.mp hf with hold | hnew
    · exact h.inRange f hold
    · rw [List.mem_singleton.mp hnew]
      exact he

theorem Rows.append_of_refused (h : db.Rows entries) (name : Name) (he : e.height < 2 ^ 64)
    (hrefused : ¬ (e.Supported {f | f ∈ entries} ∧ ∀ f ∈ entries, f.Unforked e)) :
    ∃ error, db.append e.bucketId name e.link e.previous e.height e.published =
      (.error error, db) := by
  unfold append
  cases hcheck : db.appendError e.bucketId e.link e.previous e.height with
  | some error => exact ⟨error, rfl⟩
  | none =>
      have hsupported := (h.appendError_eq_none_iff he).mp hcheck
      have hforked : ∃ f ∈ entries, ¬ f.Unforked e := by
        by_contra hnone
        push Not at hnone
        exact hrefused ⟨hsupported, hnone⟩
      dsimp only
      rw [if_pos ((h.violatesUnique_iff he).mpr hforked)]
      exact ⟨_, rfl⟩

/-! ### The queries -/

/-- A query that filters the rows and projects them is one on the entries. -/
theorem Rows.filter_map_eq {β : Type} (h : db.Rows entries)
    (pred : Uuid × Link × ℤ → Bool) (project : Uuid × Link × ℤ → β) :
    (db.bucketLog.filter (fun row => pred (slot row))).map (fun row => project (slot row)) =
      (entries.filter (fun e => pred (slotOf e))).map (fun e => project (slotOf e)) := by
  have hmap := congrArg (fun slots => (slots.filter pred).map project) h.slots
  rw [List.filter_map, List.filter_map, List.map_map, List.map_map] at hmap
  exact hmap

theorem Rows.exists_eq (h : db.Rows entries) (id : Uuid) :
    BucketLogProvider.exists db id =
      .ok (decide (∃ e ∈ entries, e.bucketId = id)) := by
  have hfound := h.exists_iff (fun s => s.1 = id)
  simp only [slotOf_fst, slot_fst] at hfound
  refine congrArg Except.ok (Bool.eq_iff_iff.mpr ?_)
  simp only [List.any_eq_true, decide_eq_true_eq]
  exact hfound

theorem Rows.mem_listBuckets_iff (h : db.Rows entries) (id : Uuid) :
    id ∈ db.listBuckets ↔ ∃ e ∈ entries, e.bucketId = id := by
  have hfound := h.exists_iff (fun s => s.1 = id)
  simp only [slotOf_fst, slot_fst] at hfound
  unfold listBuckets
  rw [List.mem_mergeSort, List.mem_dedup, List.mem_map]
  exact hfound

theorem Rows.heads_eq (h : db.Rows entries) (id : Uuid) {at? : ℕ} (hat : at? < 2 ^ 64) :
    heads db id at? = .ok ((entriesAt entries id at?).map LogEntry.link) := by
  have hquery := h.filter_map_eq
    (fun s => decide (s.1 = id ∧ s.2.2 = toI64 at?)) (fun s => s.2.1)
  simp only [slotOf_fst, slotOf_link, slotOf_height, slot_fst, slot_link,
    slot_height] at hquery
  have hentries : entries.filter (fun e => decide (e.bucketId = id ∧
      toI64 e.height = toI64 at?)) = entriesAt entries id at? := by
    refine List.filter_congr (fun e he => ?_)
    simp only [toI64_inj (h.inRange e he) hat]
  rw [hentries] at hquery
  exact congrArg Except.ok hquery

theorem Rows.has_eq (h : db.Rows entries) (id : Uuid) (link : Link) :
    has db id link = .ok ((entriesOf entries id link).map LogEntry.height) := by
  have hquery := h.filter_map_eq
    (fun s => decide (s.1 = id ∧ s.2.1 = link)) (fun s => toU64 s.2.2)
  simp only [slotOf_fst, slotOf_link, slotOf_height, slot_fst, slot_link,
    slot_height] at hquery
  have hentries : (entriesOf entries id link).map (fun e => toU64 (toI64 e.height)) =
      (entriesOf entries id link).map LogEntry.height := by
    refine List.map_congr_left (fun e he => ?_)
    exact toU64_toI64 (h.inRange e (List.mem_of_mem_filter he))
  exact congrArg Except.ok (hquery.trans hentries)

theorem Rows.heights_eq (h : db.Rows entries) (id : Uuid) :
    (db.bucketLog.filter (fun row => decide (row.bucketId = id))).map
        BucketLogRow.height =
      (entries.filter (fun e => decide (e.bucketId = id))).map
        (fun e => toI64 e.height) := by
  have hquery := h.filter_map_eq (fun s => decide (s.1 = id)) (fun s => s.2.2)
  simp only [slotOf_fst, slotOf_height, slot_fst, slot_height] at hquery
  exact hquery

theorem height_eq (db : Database) (id : Uuid) :
    height db id =
      match ((db.bucketLog.filter (fun row => decide (row.bucketId = id))).map
        BucketLogRow.height).max? with
      | some top => .ok (toU64 top)
      | none => .error (.headNotFound 0) := rfl

theorem height_of_max {id : Uuid} {top : ℤ}
    (h : ((db.bucketLog.filter (fun row => decide (row.bucketId = id))).map
      BucketLogRow.height).max? = some top) : height db id = .ok (toU64 top) := by
  rw [height_eq, h]

theorem height_of_none {id : Uuid}
    (h : ((db.bucketLog.filter (fun row => decide (row.bucketId = id))).map
      BucketLogRow.height).max? = none) : height db id = .error (.headNotFound 0) := by
  rw [height_eq, h]

/-- `MAX(height)` is the greatest height as long as none is negative as an `i64`. -/
theorem Rows.height_of_isGreatest (h : db.Rows entries)
    (hrange : ∀ e ∈ entries, e.height < 2 ^ 63) {id : Uuid} {top : ℕ}
    (htop : IsGreatest (heightsIn entries id) top) : height db id = .ok top := by
  have hcast : ∀ e ∈ entries, toI64 e.height = e.height := by
    intro e he
    rw [toI64_eq (h.inRange e he), if_pos (hrange e he)]
  obtain ⟨⟨g, hg, hid, hheight⟩, hleast⟩ := htop
  have hmax : ((db.bucketLog.filter (fun row => decide (row.bucketId = id))).map
      BucketLogRow.height).max? = some (top : ℤ) := by
    rw [h.heights_eq, List.max?_eq_some_iff]
    constructor
    · refine List.mem_map.mpr ⟨g, List.mem_filter.mpr ⟨hg, by simpa using hid⟩, ?_⟩
      rw [hcast g hg, hheight]
    · intro below hbelow
      obtain ⟨e, he, rfl⟩ := List.mem_map.mp hbelow
      obtain ⟨he, hid'⟩ := List.mem_filter.mp he
      have hle : e.height ≤ top := hleast ⟨e, he, of_decide_eq_true hid', rfl⟩
      rw [hcast e he]
      omega
  have htop : top < 2 ^ 63 := hheight ▸ hrange g hg
  rw [height_of_max hmax]
  unfold toU64
  congr 1
  omega

theorem Rows.height_of_empty (h : db.Rows entries) {id : Uuid}
    (hempty : heightsIn entries id = ∅) : height db id = .error (.headNotFound 0) := by
  have hnone : entries.filter (fun e => decide (e.bucketId = id)) = [] := by
    refine List.filter_eq_nil_iff.mpr (fun e he hid => ?_)
    have hmem : e.height ∈ heightsIn entries id := ⟨e, he, of_decide_eq_true hid, rfl⟩
    rw [hempty] at hmem
    exact hmem
  apply height_of_none
  rw [h.heights_eq, hnone]
  rfl

/-- A bucket with a genesis never reports a height from 2^63 on. -/
theorem Rows.height_lt (h : db.Rows entries) {g : LogEntry} (hg : g ∈ entries)
    (hzero : g.height = 0) {top : ℕ} (htop : height db g.bucketId = .ok top) :
    top < 2 ^ 63 := by
  cases hmax : ((db.bucketLog.filter (fun row => decide (row.bucketId = g.bucketId))).map
      BucketLogRow.height).max? with
  | none =>
      rw [h.heights_eq, List.max?_eq_none_iff, List.map_eq_nil_iff,
        List.filter_eq_nil_iff] at hmax
      exact absurd (decide_eq_true rfl) (hmax g hg)
  | some greatest =>
      have hheight := height_of_max hmax
      rw [htop] at hheight
      rw [h.heights_eq, List.max?_eq_some_iff] at hmax
      have hnonneg : toI64 g.height ≤ greatest :=
        hmax.2 _ (List.mem_map.mpr ⟨g, List.mem_filter.mpr ⟨hg, by simp⟩, rfl⟩)
      obtain ⟨e, he, hgreatest⟩ := List.mem_map.mp hmax.1
      have hrange := h.inRange e (List.mem_of_mem_filter he)
      rw [toI64_eq (h.inRange g hg), hzero] at hnonneg
      rw [toI64_eq hrange] at hgreatest
      have heq : top = toU64 greatest := Except.ok.inj hheight
      unfold toU64 at heq
      split_ifs at hgreatest hnonneg <;> omega

end

end Database

/-! ## The comparison -/

/-- The database accepts the calls that are recorded exactly when these hold no fork,
and then it holds the records. -/
theorem Database.runCalls_spec (db : Database) {entries : List LogEntry}
    (h : db.Rows entries) (hunforked : entries.Pairwise Unforked)
    (calls : List AppendCall) :
    (verdicts db calls = acceptances entries calls ↔
      (recordCalls entries calls).Pairwise Unforked) ∧
    ((recordCalls entries calls).Pairwise Unforked →
      (runCalls db calls).Rows (recordCalls entries calls)) := by
  induction calls generalizing db entries with
  | nil => exact ⟨⟨fun _ => hunforked, fun _ => rfl⟩, fun _ => h⟩
  | cons call rest ih =>
      unfold verdicts acceptances recordCalls runCalls
      by_cases hadmitted : call.entry.Admitted {f | f ∈ entries}
      · rw [if_pos hadmitted, if_pos hadmitted]
        by_cases hnew : ∀ f ∈ entries, f.Unforked call.entry
        · obtain ⟨hok, hrows⟩ := h.append_of_unforked call.name call.inRange
            hadmitted.2 hnew
          have hisOk : (call.run db).1.isOk = true := by
            rw [show (call.run db).1 = .ok () from hok]
            rfl
          have hpairwise : (entries ++ [call.entry]).Pairwise Unforked := by
            rw [List.pairwise_append]
            refine ⟨hunforked, List.pairwise_singleton _ _, ?_⟩
            intro f hf g hg
            rw [List.mem_singleton.mp hg]
            exact hnew f hf
          rw [hisOk, List.cons_inj_right]
          exact ih (call.run db).2 hrows hpairwise
        · -- the fork is recorded by one provider and refused by the other
          have hforked : ¬ (recordCalls (entries ++ [call.entry]) rest).Pairwise
              Unforked := by
            intro hpairwise
            have hsub := hpairwise.sublist
              (prefix_recordCalls (entries ++ [call.entry]) rest).sublist
            rw [List.pairwise_append] at hsub
            exact hnew (fun f hf =>
              hsub.2.2 f hf call.entry (List.mem_singleton_self _))
          obtain ⟨error, hrefused⟩ := h.append_of_refused call.name call.inRange
            (fun hboth => hnew hboth.2)
          have hisOk : (call.run db).1.isOk = false := by
            rw [show (call.run db).1 = .error error from congrArg Prod.fst hrefused]
            rfl
          rw [hisOk]
          refine ⟨⟨fun habsurd => ?_, fun hpairwise => absurd hpairwise hforked⟩,
            fun hpairwise => absurd hpairwise hforked⟩
          simp at habsurd
      · rw [if_neg hadmitted, if_neg hadmitted]
        have hrefused : ¬ (call.entry.Supported {f | f ∈ entries} ∧
            ∀ f ∈ entries, f.Unforked call.entry) := by
          rintro ⟨hsupported, hnew⟩
          refine hadmitted ⟨fun f hf hsame => ?_, hsupported⟩
          exact (hnew f hf hsame.1).1 hsame.2.1
        obtain ⟨error, hrefused⟩ := h.append_of_refused call.name call.inRange
          hrefused
        have hrun : call.run db = (.error error, db) := hrefused
        rw [hrun, show Except.isOk (.error error : Except BucketLogError Unit) = false from
          rfl, List.cons_inj_right]
        exact ih db h hunforked

/-- The two logs give the same answers; buckets and heads are compared as sets. -/
structure SameLogAnswers (log : MemoryBucketLogProvider) (db : Database) : Prop where
  exists_eq : ∀ id, BucketLogProvider.exists log id = BucketLogProvider.exists db id
  height_eq : ∀ id, height log id = height db id
  has_eq : ∀ id link, has log id link = has db id link
  buckets : ∀ id, id ∈ log.inner.listBuckets ↔ id ∈ db.listBuckets
  heads : ∀ id at?, at? < 2 ^ 64 → ∃ links links', heads log id at? = .ok links ∧
    heads db id at? = .ok links' ∧ ∀ link, link ∈ links ↔ link ∈ links'
  head_eq : ∀ id height?, (∀ at? ∈ height?, at? < 2 ^ 64) →
    head log id height? = head db id height?

/-- Started empty and given the calls, the providers accept the same ones and end with
the same answers. -/
def Interchangeable (namesConstraints : Bool) (calls : List AppendCall) : Prop :=
  verdicts MemoryBucketLogProvider.new calls =
      verdicts (Database.new namesConstraints) calls ∧
    SameLogAnswers (runCalls MemoryBucketLogProvider.new calls)
      (runCalls (Database.new namesConstraints) calls)

/-- No bucket has two entries of one height or of one link, every bucket that a call
named has an entry, and the heights are in the range of `i64`. -/
structure Unambiguous (calls : List AppendCall) : Prop where
  unforked : (recordCalls [] calls).Pairwise Unforked
  entered : ∀ call ∈ calls, ∃ e ∈ recordCalls [] calls, e.bucketId = call.entry.bucketId
  inRange : ∀ e ∈ recordCalls [] calls, e.height < 2 ^ 63

section

variable {namesConstraints : Bool} {calls : List AppendCall}

theorem rows_new : (Database.new namesConstraints).Rows [] := ⟨rfl, by simp⟩

theorem verdicts_agree_iff :
    verdicts MemoryBucketLogProvider.new calls =
        verdicts (Database.new namesConstraints) calls ↔
      (recordCalls [] calls).Pairwise Unforked := by
  rw [(MemoryBucketLogProvider.records_runCalls MemoryBucketLogProvider.new
    records_default calls).2, eq_comm]
  exact (Database.runCalls_spec _ rows_new List.Pairwise.nil calls).1

theorem head_of_heads {σ : Type} [BucketLogProvider σ] {log : σ} {id : Uuid}
    {height? : Option ℕ} {top : ℕ} {links : List Link} (htop : height log id = .ok top)
    (hlinks : heads log id (height?.getD top) = .ok links) :
    head log id height? =
      match links.maximum with
      | some link => .ok (link, height?.getD top)
      | none => .error (.headNotFound (height?.getD top)) := by
  unfold head
  rw [htop]
  change (do let links ← heads log id (height?.getD top); _) = _
  rw [hlinks]
  rfl

theorem head_congr {σ τ : Type} [BucketLogProvider σ] [BucketLogProvider τ] {log : σ}
    {log' : τ} {id : Uuid} {height? : Option ℕ} {top : ℕ} {links links' : List Link}
    (htop : height log id = .ok top) (htop' : height log' id = .ok top)
    (hlinks : heads log id (height?.getD top) = .ok links)
    (hlinks' : heads log' id (height?.getD top) = .ok links')
    (hmax : links.maximum = links'.maximum) :
    head log id height? = head log' id height? := by
  rw [head_of_heads htop hlinks, head_of_heads htop' hlinks', hmax]

theorem head_of_height_error {σ : Type} [BucketLogProvider σ] {log : σ} {id : Uuid}
    {height? : Option ℕ} {error : BucketLogError} (h : height log id = .error error) :
    head log id height? = .error error := by
  unfold head
  rw [h]
  rfl

theorem records_run (calls : List AppendCall) :
    (runCalls MemoryBucketLogProvider.new calls).inner.Records (recordCalls [] calls) :=
  (MemoryBucketLogProvider.records_runCalls MemoryBucketLogProvider.new
    records_default calls).1

theorem rows_run (namesConstraints : Bool) (h : (recordCalls [] calls).Pairwise Unforked) :
    (runCalls (Database.new namesConstraints) calls).Rows (recordCalls [] calls) :=
  (Database.runCalls_spec _ rows_new List.Pairwise.nil calls).2 h

/-- The in-memory provider knows the buckets of all calls. -/
theorem contains_run_iff (id : Uuid) :
    (runCalls MemoryBucketLogProvider.new calls).inner.entries.contains id = true ↔
      ∃ call ∈ calls, call.entry.bucketId = id := by
  rw [MemoryBucketLogProvider.contains_runCalls]
  constructor
  · rintro (hcall | habsurd)
    · exact hcall
    · exact absurd habsurd (by simp [MemoryBucketLogProvider.new,
        MemoryBucketLogProviderInner.default])
  · exact Or.inl

theorem memory_height_eq (id : Uuid) :
    height (runCalls MemoryBucketLogProvider.new calls) id =
      match (runCalls MemoryBucketLogProvider.new calls).inner.maxHeights.get? id with
      | some top => .ok top
      | none => .error (BucketLogError.headNotFound 0) := rfl

theorem isGreatest_of_memory_height {id : Uuid} {top : ℕ}
    (h : height (runCalls MemoryBucketLogProvider.new calls) id = .ok top) :
    IsGreatest (heightsIn (recordCalls [] calls) id) top := by
  have htop := (records_run calls).top id
  rw [memory_height_eq] at h
  cases hmax : (runCalls MemoryBucketLogProvider.new calls).inner.maxHeights.get? id with
  | none =>
      rw [hmax] at h
      contradiction
  | some greatest =>
      rw [hmax] at h htop
      cases h
      exact htop

theorem Unambiguous.height_eq (h : Unambiguous calls) (namesConstraints : Bool)
    (id : Uuid) :
    height (runCalls MemoryBucketLogProvider.new calls) id =
      height (runCalls (Database.new namesConstraints) calls) id := by
  have hrows := rows_run namesConstraints h.unforked
  have htop := (records_run calls).top id
  rw [memory_height_eq]
  cases hmax : (runCalls MemoryBucketLogProvider.new calls).inner.maxHeights.get? id with
  | none =>
      rw [hmax] at htop
      exact (hrows.height_of_empty htop).symm
  | some top =>
      rw [hmax] at htop
      exact (hrows.height_of_isGreatest h.inRange htop).symm

theorem heads_eq_of_unforked (h : (recordCalls [] calls).Pairwise Unforked) (id : Uuid)
    {at? : ℕ} (hat : at? < 2 ^ 64) :
    heads (runCalls MemoryBucketLogProvider.new calls) id at? =
      heads (runCalls (Database.new namesConstraints) calls) id at? := by
  rw [(rows_run namesConstraints h).heads_eq id hat]
  exact congrArg Except.ok ((records_run calls).links id at?)

theorem Unambiguous.sameLogAnswers (h : Unambiguous calls) :
    SameLogAnswers (runCalls MemoryBucketLogProvider.new calls)
      (runCalls (Database.new namesConstraints) calls) := by
  have hrows := rows_run namesConstraints h.unforked
  have hnamed : ∀ id, (runCalls MemoryBucketLogProvider.new calls).inner.entries.contains
      id = true ↔ ∃ e ∈ recordCalls [] calls, e.bucketId = id := by
    intro id
    rw [contains_run_iff]
    constructor
    · rintro ⟨call, hcall, rfl⟩
      exact h.entered call hcall
    · rintro ⟨e, he, hid⟩
      rcases mem_recordCalls he with habsurd | ⟨call, hcall, rfl⟩
      · exact absurd habsurd List.not_mem_nil
      · exact ⟨call, hcall, hid⟩
  refine ⟨?_, h.height_eq namesConstraints, ?_, ?_, ?_, ?_⟩
  · intro id
    rw [hrows.exists_eq]
    exact congrArg Except.ok (Bool.eq_iff_iff.mpr (by simpa using hnamed id))
  · intro id link
    rw [hrows.has_eq]
    exact congrArg Except.ok ((records_run calls).heights id link)
  · intro id
    rw [MemoryBucketLogProvider.mem_listBuckets_iff, hnamed, hrows.mem_listBuckets_iff]
  · intro id at? hat
    exact ⟨_, _, rfl, (heads_eq_of_unforked h.unforked id hat).symm.trans rfl,
      fun link => Iff.rfl⟩
  · intro id height? hat
    have hheight := h.height_eq namesConstraints id
    cases htop : height (runCalls MemoryBucketLogProvider.new calls) id with
    | error error =>
        rw [head_of_height_error htop, head_of_height_error (hheight.symm.trans htop)]
    | ok top =>
        have hrange : height?.getD top < 2 ^ 64 := by
          cases height? with
          | some given => exact hat given rfl
          | none =>
              obtain ⟨⟨e, he, _, hheight⟩, _⟩ := isGreatest_of_memory_height htop
              have hlt := h.inRange e he
              change top < 2 ^ 64
              omega
        exact head_congr htop (hheight.symm.trans htop) rfl
          ((heads_eq_of_unforked h.unforked id hrange).symm.trans rfl) rfl

/-- The providers are interchangeable exactly on the calls that record no fork, enter
every bucket they name and stay in the range of `i64`. -/
theorem interchangeable_iff :
    Interchangeable namesConstraints calls ↔ Unambiguous calls := by
  constructor
  · rintro ⟨hverdicts, hsame⟩
    have hunforked := verdicts_agree_iff.mp hverdicts
    have hrows := rows_run namesConstraints hunforked
    have hnil : Recorded [] := trivial
    have hrecorded := recorded_recordCalls hnil calls
    refine ⟨hunforked, ?_, ?_⟩
    · intro call hcall
      have hexists := hsame.exists_eq call.entry.bucketId
      rw [hrows.exists_eq] at hexists
      have hcontains := (contains_run_iff _).mpr ⟨call, hcall, rfl⟩
      exact of_decide_eq_true ((Except.ok.inj hexists).symm.trans hcontains)
    · intro e he
      have hheight := hsame.height_eq e.bucketId
      cases htop : height (runCalls MemoryBucketLogProvider.new calls) e.bucketId with
      | error error =>
          have hempty := (records_run calls).top e.bucketId
          rw [memory_height_eq] at htop
          cases hmax : (runCalls MemoryBucketLogProvider.new
              calls).inner.maxHeights.get? e.bucketId with
          | some top =>
              rw [hmax] at htop
              contradiction
          | none =>
              rw [hmax] at hempty
              have hmem : e.height ∈ heightsIn (recordCalls [] calls) e.bucketId :=
                ⟨e, he, rfl, rfl⟩
              rw [show heightsIn (recordCalls [] calls) e.bucketId = ∅ from hempty] at hmem
              exact absurd hmem (Set.notMem_empty _)
      | ok top =>
          -- the database never reports a height from 2^63 on
          obtain ⟨g, hg, hid, hzero⟩ := hrecorded.exists_at_height he (Nat.zero_le _)
          have hstored : height (runCalls (Database.new namesConstraints) calls) g.bucketId =
              .ok top := by
            rw [hid, ← hheight, htop]
          have hlt := hrows.height_lt hg hzero hstored
          have hle := (isGreatest_of_memory_height htop).2 ⟨e, he, rfl, rfl⟩
          omega
  · intro h
    exact ⟨verdicts_agree_iff.mpr h.unforked, h.sameLogAnswers⟩

end

/-- A genesis and two versions on top of it. -/
def forkCalls : List AppendCall :=
  [⟨⟨⟨7⟩, Link.default, none, 0, false⟩, [], zero_inRange⟩,
    ⟨⟨⟨7⟩, ⟨ldRawCodec, ⟨[1]⟩⟩, some Link.default, 1, false⟩, [], one_inRange⟩,
    ⟨⟨⟨7⟩, ⟨ldRawCodec, ⟨[2]⟩⟩, some Link.default, 1, false⟩, [], one_inRange⟩]

/-- A version whose predecessor is not in the log. -/
def orphanCalls : List AppendCall :=
  [⟨⟨⟨7⟩, Link.default, some Link.default, 1, false⟩, [], one_inRange⟩]

/-- The fork is taken by the in-memory provider only; the orphan is refused by both,
and then the bucket exists for one of them. -/
theorem fork_and_orphan_not_interchangeable :
    ¬ Interchangeable true forkCalls ∧ ¬ Interchangeable true orphanCalls := by
  have hverdicts : verdicts MemoryBucketLogProvider.new forkCalls = [true, true, true] ∧
      verdicts (Database.new true) forkCalls = [true, true, false] := by decide +kernel
  constructor
  · intro hsame
    have heq := hsame.1
    rw [hverdicts.1, hverdicts.2] at heq
    contradiction
  · intro hsame
    have hexists := hsame.2.exists_eq ⟨7⟩
    have hmemory : (runCalls MemoryBucketLogProvider.new
        orphanCalls).inner.entries.contains ⟨7⟩ = true :=
      (contains_run_iff _).mpr ⟨_, List.mem_cons_self, rfl⟩
    have hdatabase : BucketLogProvider.exists (runCalls (Database.new true) orphanCalls)
        ⟨7⟩ = .ok false := rfl
    rw [hdatabase] at hexists
    have habsurd : true = false := hmemory.symm.trans (Except.ok.inj hexists)
    contradiction

end JaxFs

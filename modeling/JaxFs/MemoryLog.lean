import JaxFs.LogOrder

/-!
# The maps of the in-memory provider

The provider keeps the entries, the greatest heights and the index of links in
separate maps.  Whatever calls were made, they describe one log without gaps.  A
rejected call has already written the bucket's name and an empty entry, which shows
exactly when the bucket was not known before.
-/

namespace JaxFs

open BucketLogProvider LogEntry MemoryBucketLogProviderInner

namespace MemoryBucketLogProvider

/-- What the maps say about one bucket. -/
structure WellShaped (log : MemoryBucketLogProvider) (id : Uuid) : Prop where
  top : IsTop (log.inner.maxHeights.get? id) {height | log.inner.linksAt id height ≠ []}
  gapless : ∀ top, log.inner.maxHeights.get? id = some top →
    ∀ below ≤ top, log.inner.linksAt id below ≠ []
  index : ∀ number link,
    link ∈ log.inner.linksAt id number ↔ number ∈ log.inner.heightsOf id link
  nodup : ∀ number, (log.inner.linksAt id number).Nodup
  head : ∀ top, height log id = .ok top → ∃ link,
    head log id none = .ok (link, top) ∧ IsGreatest {l | l ∈ log.inner.linksAt id top} link

section

variable {log : MemoryBucketLogProvider} {entries : List LogEntry} {id : Uuid}

/-- The heights with a link are the heights of the entries. -/
theorem linksAt_ne_nil_iff (h : log.inner.Records entries) {number : ℕ} :
    log.inner.linksAt id number ≠ [] ↔ number ∈ heightsIn entries id := by
  constructor
  · intro hlinks
    obtain ⟨link, hlink⟩ := List.exists_mem_of_ne_nil _ hlinks
    obtain ⟨e, he, hid, hheight, _⟩ := h.mem_linksAt_iff.mp hlink
    exact ⟨e, he, hid, hheight⟩
  · rintro ⟨e, he, hid, hheight⟩
    exact List.ne_nil_of_mem (h.mem_linksAt_iff.mpr ⟨e, he, hid, hheight, rfl⟩)

theorem nodup_linksAt (h : log.inner.Records entries) (hrecorded : Recorded entries)
    (number : ℕ) : (log.inner.linksAt id number).Nodup := by
  rw [h.links]
  refine List.Nodup.map_on ?_ (hrecorded.nodup.filter _)
  intro e he f hf hlink
  obtain ⟨he, heid, heheight⟩ := mem_entriesAt_iff.mp he
  obtain ⟨hf, hfid, hfheight⟩ := mem_entriesAt_iff.mp hf
  exact hrecorded.eq_of_sameSlot he hf
    ⟨heid.trans hfid.symm, heheight.trans hfheight.symm, hlink⟩

theorem height_eq (log : MemoryBucketLogProvider) (id : Uuid) :
    height log id =
      match log.inner.maxHeights.get? id with
      | some top => .ok top
      | none => .error (.headNotFound 0) := rfl

/-- The head is the greatest link at the greatest height. -/
theorem head_eq_of_links {top : ℕ} (htop : height log id = .ok top)
    (hlinks : log.inner.linksAt id top ≠ []) : ∃ link,
    head log id none = .ok (link, top) ∧ IsGreatest {l | l ∈ log.inner.linksAt id top} link := by
  obtain ⟨link, hmax⟩ := WithBot.ne_bot_iff_exists.mp (List.maximum_ne_bot_of_ne_nil hlinks)
  refine ⟨link, ?_, List.maximum_mem hmax.symm, fun l hl => List.le_maximum_of_mem hl hmax.symm⟩
  have hheads : heads log id ((none : Option ℕ).getD top) =
      .ok (log.inner.linksAt id top) := rfl
  rw [head_of_heads htop hheads, ← hmax]
  rfl

/-- The maps have entries at these heights only. -/
theorem not_logged_of_heights {log : MemoryBucketLogProvider} {id : Uuid} {heights : List ℕ}
    (h : (log.inner.entries.get? id).map (fun bucket => bucket.toList.map Prod.fst) =
      some heights) {height : ℕ} (hnot : height ∉ heights) (link : Link) :
    ¬ Logged log id height link := by
  obtain ⟨bucket, hbucket, rfl⟩ := Option.map_eq_some_iff.mp h
  rw [logged_iff, MemoryBucketLogProviderInner.linksAt, hbucket]
  cases hlinks : bucket.get? height with
  | none => simp [hlinks]
  | some links =>
      have hmem := FinMap.get?_eq_some_iff.mp hlinks
      exact absurd (List.mem_map.mpr ⟨_, hmem, rfl⟩) hnot

/-- The maps agree because they record the same entries, and the entries have no gap
because each was admitted on top of another one. -/
theorem wellShaped_of_records (h : log.inner.Records entries) (hrecorded : Recorded entries)
    (id : Uuid) : log.WellShaped id := by
  have hheights : {number | log.inner.linksAt id number ≠ []} = heightsIn entries id := by
    ext number
    exact linksAt_ne_nil_iff h
  have hgapless : ∀ top, log.inner.maxHeights.get? id = some top →
      ∀ below ≤ top, log.inner.linksAt id below ≠ [] := by
    intro top htop below hbelow
    have hgreatest := h.top id
    rw [htop] at hgreatest
    obtain ⟨⟨e, he, hid, hheight⟩, _⟩ := hgreatest
    obtain ⟨f, hf, hfid, hfheight⟩ := hrecorded.exists_at_height he (hheight ▸ hbelow)
    exact (linksAt_ne_nil_iff h).mpr ⟨f, hf, hfid.trans hid, hfheight⟩
  refine ⟨?_, hgapless, fun number link => log.consistent id number link,
    nodup_linksAt h hrecorded, ?_⟩
  · rw [hheights]
    exact h.top id
  · intro top htop
    have hmax : log.inner.maxHeights.get? id = some top := by
      rw [height_eq] at htop
      cases hmax : log.inner.maxHeights.get? id with
      | none =>
          rw [hmax] at htop
          contradiction
      | some found =>
          rw [hmax] at htop
          exact congrArg some (Except.ok.inj htop)
    exact head_eq_of_links htop (hgapless top hmax top le_rfl)

end

/-- After all calls, accepted or not, the maps describe one log. -/
theorem wellShaped_runCalls (calls : List AppendCall) (id : Uuid) :
    (runCalls MemoryBucketLogProvider.new calls).WellShaped id :=
  wellShaped_of_records (records_run calls)
    (recorded_recordCalls (show Recorded [] from trivial) calls) id

/-! ## Rejected calls -/

/-- Every query of the trait gives the same answer for every bucket; the listed buckets
are compared as a set. -/
structure SameObservations (log log' : MemoryBucketLogProvider) : Prop where
  exists_eq : ∀ id, BucketLogProvider.exists log' id = BucketLogProvider.exists log id
  heads_eq : ∀ id number, heads log' id number = heads log id number
  height_eq : ∀ id, height log' id = height log id
  has_eq : ∀ id link, has log' id link = has log id link
  head_eq : ∀ id height?, head log' id height? = head log id height?
  buckets : ∀ id, id ∈ log'.inner.listBuckets ↔ id ∈ log.inner.listBuckets
  latestPublished_eq : ∀ id, log'.inner.latestPublished id = log.inner.latestPublished id

section

variable {log : MemoryBucketLogProvider} {call : AppendCall} {error : BucketLogError}

/-- A rejected call has written the name and the bucket's entry. -/
theorem inner_run_of_error (h : (call.run log).1 = .error error) :
    (call.run log).2.inner =
      { log.inner with
        names := log.inner.names.put call.entry.bucketId call.name
        entries := log.inner.entries.put call.entry.bucketId
          ((log.inner.entries.get? call.entry.bucketId).getD KeyedMap.empty) } := by
  change (log.inner.append call.entry.bucketId call.name call.entry.link
    call.entry.previous call.entry.height call.entry.published).2 = _
  change (log.inner.append call.entry.bucketId call.name call.entry.link
    call.entry.previous call.entry.height call.entry.published).1 = _ at h
  cases hcheck : appendError ((log.inner.entries.get? call.entry.bucketId).getD
      KeyedMap.empty) call.entry.link call.entry.previous call.entry.height with
  | none =>
      rw [append_of_none hcheck] at h
      contradiction
  | some found =>
      unfold MemoryBucketLogProviderInner.append
      simp only [hcheck]

/-- The maps that the queries read are the same when the bucket has an entry. -/
theorem entries_put_of_known (inner : MemoryBucketLogProviderInner) {id : Uuid}
    (hknown : inner.entries.contains id = true) :
    inner.entries.put id ((inner.entries.get? id).getD KeyedMap.empty) = inner.entries := by
  obtain ⟨entry, hentry⟩ := Option.isSome_iff_exists.mp hknown
  have hget : inner.entries.get? id = some entry.2 := by
    unfold FinMap.get?
    rw [hentry, Option.map_some]
  rw [hget, Option.getD_some]
  exact FinMap.put_eq_self hget

theorem sameObservations_of_maps {log' : MemoryBucketLogProvider}
    (hentries : log'.inner.entries = log.inner.entries)
    (hmax : log'.inner.maxHeights = log.inner.maxHeights)
    (hindex : log'.inner.linkIndex = log.inner.linkIndex)
    (hpublished : log'.inner.published = log.inner.published) :
    SameObservations log log' := by
  have hheads : ∀ id number, heads log' id number = heads log id number := by
    intro id number
    change Except.ok (log'.inner.linksAt id number) = Except.ok (log.inner.linksAt id number)
    unfold linksAt
    rw [hentries]
  have hheight : ∀ id, height log' id = height log id := by
    intro id
    rw [height_eq, height_eq, hmax]
  refine ⟨?_, hheads, hheight, ?_, ?_, ?_, ?_⟩
  · intro id
    exact congrArg (fun entries => Except.ok (KeyedMap.contains entries id)) hentries
  · intro id link
    change Except.ok (log'.inner.heightsOf id link) = Except.ok (log.inner.heightsOf id link)
    unfold heightsOf
    rw [hindex]
  · intro id height?
    unfold BucketLogProvider.head
    simp only [hheads, hheight]
  · intro id
    unfold listBuckets
    rw [hentries]
  · intro id
    unfold latestPublished
    rw [hentries, hpublished]

/-- A rejected call leaves every answer as it was exactly when its bucket was known. -/
theorem sameObservations_of_error_iff (h : (call.run log).1 = .error error) :
    SameObservations log (call.run log).2 ↔
      BucketLogProvider.exists log call.entry.bucketId = .ok true := by
  have hinner := inner_run_of_error h
  constructor
  · intro hsame
    rw [← hsame.exists_eq]
    change Except.ok ((call.run log).2.inner.entries.contains call.entry.bucketId) = _
    rw [hinner]
    exact congrArg Except.ok (FinMap.contains_put_iff.mpr (Or.inl rfl))
  · intro hexists
    have hknown : log.inner.entries.contains call.entry.bucketId = true :=
      Except.ok.inj hexists
    have hput := entries_put_of_known log.inner hknown
    rw [hput] at hinner
    exact sameObservations_of_maps (by rw [hinner]) (by rw [hinner]) (by rw [hinner])
      (by rw [hinner])

end

/-- A genesis that the log already holds is refused without a trace. -/
theorem repeated_genesis_unseen :
    SameObservations (runCalls new [genesisCall])
      (genesisCall.run (runCalls new [genesisCall])).2 := by
  have hrun : (genesisCall.run (runCalls new [genesisCall])).1 = .error .conflict ∧
      BucketLogProvider.exists (runCalls new [genesisCall])
        genesisCall.entry.bucketId = .ok true := by
    decide +kernel
  exact (sameObservations_of_error_iff hrun.1).mpr hrun.2

/-- A version without its predecessor. -/
def orphanCall : AppendCall :=
  ⟨⟨⟨7⟩, Link.default, some Link.default, 1, false⟩, [], one_inRange⟩

/-- The orphan is refused, and its bucket exists from then on. -/
theorem refused_orphan_seen :
    (orphanCall.run new).1 = .error (.invalidAppend Link.default Link.default 0) ∧
      BucketLogProvider.exists new ⟨7⟩ = .ok false ∧
      BucketLogProvider.exists (orphanCall.run new).2 ⟨7⟩ = .ok true ∧
      ¬ SameObservations new (orphanCall.run new).2 := by
  have hrun : (orphanCall.run new).1 = .error (.invalidAppend Link.default Link.default 0) ∧
      BucketLogProvider.exists new ⟨7⟩ = .ok false ∧
      BucketLogProvider.exists (orphanCall.run new).2 ⟨7⟩ = .ok true := by
    decide +kernel
  obtain ⟨herror, hbefore, hafter⟩ := hrun
  refine ⟨herror, hbefore, hafter, fun hsame => ?_⟩
  have heq := hsame.exists_eq ⟨7⟩
  rw [hbefore, hafter] at heq
  exact absurd (Except.ok.inj heq) (by decide)

end MemoryBucketLogProvider

end JaxFs

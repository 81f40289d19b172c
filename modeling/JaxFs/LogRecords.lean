import JaxFs.BucketLog
import JaxFs.Histories

/-!
# What a log records

The purpose of a bucket log, apart from how a provider keeps it: the calls it
accepts, in order.  A call needs its previous link recorded one height below, and a
link is recorded once at a height; several links may share a height.  The in-memory
provider answers from these records.
-/

namespace JaxFs

open BucketLogProvider

structure LogEntry where
  bucketId : Uuid
  link : Link
  previous : Option Link
  height : ℕ
  published : Bool
  deriving DecidableEq

/-- A call of `append`; heights are `u64`. -/
structure AppendCall where
  entry : LogEntry
  name : Name
  inRange : entry.height < 2 ^ 64

theorem zero_inRange : 0 < 2 ^ 64 := by decide

theorem one_inRange : 1 < 2 ^ 64 := by decide

/-- The two entries put one link at one height. -/
def LogEntry.SameSlot (e f : LogEntry) : Prop :=
  e.bucketId = f.bucketId ∧ e.height = f.height ∧ e.link = f.link

/-- `f` is a version on top of `e`. -/
def LogEntry.Extends (e f : LogEntry) : Prop :=
  e.bucketId = f.bucketId ∧ f.previous = some e.link ∧ f.height = e.height + 1

/-- A genesis is at height 0, another version is on top of a recorded one. -/
def LogEntry.Supported (past : Set LogEntry) (e : LogEntry) : Prop :=
  match e.previous with
  | none => e.height = 0
  | some _ => ∃ below ∈ past, below.Extends e

/-- The log takes the entry after those of the past. -/
def LogEntry.Admitted (past : Set LogEntry) (e : LogEntry) : Prop :=
  (∀ f ∈ past, ¬ f.SameSlot e) ∧ e.Supported past

/-- The entries were recorded in this order. -/
def Recorded (entries : List LogEntry) : Prop :=
  AllowedFrom LogEntry.Admitted ∅ entries

namespace LogEntry

instance (e f : LogEntry) : Decidable (e.SameSlot f) :=
  inferInstanceAs (Decidable (_ ∧ _ ∧ _))

instance (e f : LogEntry) : Decidable (e.Extends f) :=
  inferInstanceAs (Decidable (_ ∧ _ ∧ _))

instance (entries : List LogEntry) (e : LogEntry) :
    Decidable (e.Supported {f | f ∈ entries}) :=
  match h : e.previous with
  | none => decidable_of_iff (e.height = 0) (by simp [Supported, h])
  | some _ =>
      decidable_of_iff (∃ below ∈ entries, below.Extends e) (by simp [Supported, h])

instance (entries : List LogEntry) (e : LogEntry) :
    Decidable (e.Admitted {f | f ∈ entries}) :=
  decidable_of_iff ((∀ f ∈ entries, ¬ f.SameSlot e) ∧ e.Supported {f | f ∈ entries})
    Iff.rfl

theorem SameSlot.symm {e f : LogEntry} (h : e.SameSlot f) : f.SameSlot e :=
  ⟨h.1.symm, h.2.1.symm, h.2.2.symm⟩

theorem Supported.mono {past past' : Set LogEntry} {e : LogEntry}
    (h : e.Supported past) (hsubset : past ⊆ past') : e.Supported past' := by
  unfold Supported at h ⊢
  cases hprevious : e.previous with
  | none =>
      rw [hprevious] at h
      exact h
  | some link =>
      rw [hprevious] at h
      obtain ⟨below, hbelow, hextends⟩ := h
      exact ⟨below, hsubset hbelow, hextends⟩

/-- An entry depends on the one it extends and on no other. -/
theorem independentUnless_extends : IndependentUnless Admitted Extends where
  drop := by
    intro past a b hallowed hnot
    refine ⟨fun f hf => hallowed.1 f (Set.mem_insert_of_mem a hf), ?_⟩
    have hsupported := hallowed.2
    unfold Supported at hsupported ⊢
    cases hprevious : b.previous with
    | none =>
        rw [hprevious] at hsupported
        exact hsupported
    | some link =>
        rw [hprevious] at hsupported
        obtain ⟨below, hbelow, hextends⟩ := hsupported
        rcases Set.mem_insert_iff.mp hbelow with rfl | hbelow
        · exact absurd hextends hnot
        · exact ⟨below, hbelow, hextends⟩
  keep := by
    intro past a b ha hb
    refine ⟨?_, ha.2.mono (Set.subset_insert b past)⟩
    intro f hf
    rcases Set.mem_insert_iff.mp hf with rfl | hf
    · exact fun hsame => hb.1 a (Set.mem_insert a past) hsame.symm
    · exact ha.1 f hf

end LogEntry

open LogEntry

/-- The accepted entries among the calls, in order. -/
def recordCalls : List LogEntry → List AppendCall → List LogEntry
  | entries, [] => entries
  | entries, call :: rest =>
      if call.entry.Admitted {f | f ∈ entries} then
        recordCalls (entries ++ [call.entry]) rest
      else recordCalls entries rest

/-- Which of the calls are accepted after the given entries. -/
def acceptances : List LogEntry → List AppendCall → List Bool
  | _, [] => []
  | entries, call :: rest =>
      if call.entry.Admitted {f | f ∈ entries} then
        true :: acceptances (entries ++ [call.entry]) rest
      else false :: acceptances entries rest

section

variable {σ : Type} [BucketLogProvider σ]

def AppendCall.run (call : AppendCall) (log : σ) : Except BucketLogError Unit × σ :=
  append log call.entry.bucketId call.name call.entry.link call.entry.previous
    call.entry.height call.entry.published

/-- The log after the calls. -/
def runCalls (log : σ) : List AppendCall → σ
  | [] => log
  | call :: rest => runCalls (call.run log).2 rest

/-- Which of the calls were accepted. -/
def verdicts (log : σ) : List AppendCall → List Bool
  | [] => []
  | call :: rest => (call.run log).1.isOk :: verdicts (call.run log).2 rest

end

/-! ## Selections of the records -/

/-- The heights of a bucket. -/
def heightsIn (entries : List LogEntry) (id : Uuid) : Set ℕ :=
  {height | ∃ e ∈ entries, e.bucketId = id ∧ e.height = height}

/-- The greatest of the heights, if there is one. -/
def IsTop (top : Option ℕ) (heights : Set ℕ) : Prop :=
  match top with
  | some top => IsGreatest heights top
  | none => heights = ∅

/-- The entries at one height of a bucket. -/
def entriesAt (entries : List LogEntry) (id : Uuid) (height : ℕ) : List LogEntry :=
  entries.filter (fun e => decide (e.bucketId = id ∧ e.height = height))

/-- The entries of one link of a bucket. -/
def entriesOf (entries : List LogEntry) (id : Uuid) (link : Link) : List LogEntry :=
  entries.filter (fun e => decide (e.bucketId = id ∧ e.link = link))

/-- Whether the latest entry of a link is published. -/
def flagged (entries : List LogEntry) (id : Uuid) (link : Link) : Bool :=
  ((entriesOf entries id link).getLast?.map LogEntry.published).getD false

/-- The first published link at the greatest height that has one. -/
def IsLatestPublished (entries : List LogEntry) (id : Uuid) :
    Option (Link × ℕ) → Prop
  | none => ∀ e ∈ entries, e.bucketId = id → flagged entries id e.link = false
  | some (link, best) =>
      ((entriesAt entries id best).map LogEntry.link).find? (flagged entries id) =
        some link ∧
      ∀ e ∈ entries, e.bucketId = id → best < e.height →
        flagged entries id e.link = false

theorem IsTop.unique {top top' : Option ℕ} {heights : Set ℕ} (h : IsTop top heights)
    (h' : IsTop top' heights) : top = top' := by
  cases top with
  | none =>
      cases top' with
      | none => rfl
      | some other => exact absurd (h ▸ h'.1) (Set.notMem_empty other)
  | some found =>
      cases top' with
      | none => exact absurd (h' ▸ h.1) (Set.notMem_empty found)
      | some other => exact congrArg some (IsGreatest.unique h h')

theorem IsTop.insert {top : Option ℕ} {heights : Set ℕ} (h : IsTop top heights)
    (height : ℕ) : IsTop (some (max height (top.getD height))) (insert height heights) := by
  cases top with
  | none =>
      rw [show heights = ∅ from h]
      simp [IsTop]
  | some top => exact IsGreatest.insert height h

theorem heightsIn_append_singleton (entries : List LogEntry) (e : LogEntry) (id : Uuid) :
    heightsIn (entries ++ [e]) id =
      if e.bucketId = id then Insert.insert e.height (heightsIn entries id)
      else heightsIn entries id := by
  ext height
  split_ifs with hid
  · constructor
    · rintro ⟨f, hf, hfid, hheight⟩
      rcases List.mem_append.mp hf with hold | hnew
      · exact Or.inr ⟨f, hold, hfid, hheight⟩
      · rw [List.mem_singleton] at hnew
        exact Or.inl (by rw [← hheight, hnew])
    · rintro (rfl | ⟨f, hf, hfid, hheight⟩)
      · exact ⟨e, by simp, hid, rfl⟩
      · exact ⟨f, List.mem_append_left _ hf, hfid, hheight⟩
  · constructor
    · rintro ⟨f, hf, hfid, hheight⟩
      rcases List.mem_append.mp hf with hold | hnew
      · exact ⟨f, hold, hfid, hheight⟩
      · rw [List.mem_singleton] at hnew
        exact absurd (hnew ▸ hfid) hid
    · rintro ⟨f, hf, hfid, hheight⟩
      exact ⟨f, List.mem_append_left _ hf, hfid, hheight⟩

/-! ## The in-memory provider -/

namespace MemoryBucketLogProviderInner

/-- `list_buckets`; the order of the keys is not specified. -/
def listBuckets (inner : MemoryBucketLogProviderInner) : List Uuid :=
  inner.entries.toList.map Prod.fst

/-- The loop of `latest_published` over the links of one height. -/
def latestAtHeight (flags : FinMap Link Bool) (best : Option (Link × ℕ)) (height : ℕ)
    (links : List Link) : Option (Link × ℕ) :=
  links.foldl (fun best link =>
    if (flags.get? link).getD false && best.all (fun found => decide (height > found.2))
    then some (link, height) else best) best

/-- `latest_published`.  The result does not depend on the order of the heights. -/
def latestPublished (inner : MemoryBucketLogProviderInner) (id : Uuid) :
    Option (Link × ℕ) :=
  match inner.published.get? id, inner.entries.get? id with
  | some flags, some entries =>
      entries.toList.foldl (fun best heightLinks =>
        latestAtHeight flags best heightLinks.1 heightLinks.2) none
  | _, _ => none

/-- The published status of a link. -/
def isPublished (inner : MemoryBucketLogProviderInner) (id : Uuid) (link : Link) : Bool :=
  ((inner.published.get? id).bind (fun flags => flags.get? link)).getD false

/-- The maps hold these records. -/
structure Records (inner : MemoryBucketLogProviderInner) (entries : List LogEntry) :
    Prop where
  links : ∀ id height,
    inner.linksAt id height = (entriesAt entries id height).map LogEntry.link
  heights : ∀ id link,
    inner.heightsOf id link = (entriesOf entries id link).map LogEntry.height
  top : ∀ id, IsTop (inner.maxHeights.get? id) (heightsIn entries id)
  flags : ∀ id link, (inner.published.get? id).bind (fun flags => flags.get? link) =
    (entriesOf entries id link).getLast?.map LogEntry.published

theorem records_default : default.Records [] where
  links _ _ := rfl
  heights _ _ := rfl
  top id := by
    change heightsIn [] id = ∅
    simp [heightsIn]
  flags _ _ := rfl

section

variable {inner : MemoryBucketLogProviderInner} {entries : List LogEntry}
  {e : LogEntry} {name : Name}

theorem maxHeights_append_of_none
    (hnone : appendError ((inner.entries.get? e.bucketId).getD KeyedMap.empty) e.link
      e.previous e.height = none) (id : Uuid) :
    (inner.append e.bucketId name e.link e.previous e.height
      e.published).2.maxHeights.get? id =
      if e.bucketId = id then
        some (max e.height ((inner.maxHeights.get? e.bucketId).getD e.height))
      else inner.maxHeights.get? id := by
  unfold append
  simp only [hnone]
  cases htop : inner.maxHeights.get? e.bucketId with
  | none => simp [FinMap.get?_put]
  | some top =>
      dsimp only
      by_cases hhigher : e.height > top
      · rw [if_pos hhigher]
        simp [FinMap.get?_put, max_eq_left hhigher.le]
      · rw [if_neg hhigher]
        split_ifs with hid
        · rw [← hid, htop]
          simp [max_eq_right (not_lt.mp hhigher)]
        · rfl

theorem flag_append_of_none
    (hnone : appendError ((inner.entries.get? e.bucketId).getD KeyedMap.empty) e.link
      e.previous e.height = none) (id : Uuid) (link : Link) :
    (FinMap.get? (inner.append e.bucketId name e.link e.previous e.height
      e.published).2.published id).bind (fun flags => FinMap.get? flags link) =
      if e.bucketId = id ∧ e.link = link then some e.published
      else (inner.published.get? id).bind (fun flags => flags.get? link) := by
  unfold append
  simp only [hnone]
  by_cases hid : e.bucketId = id
  · subst hid
    by_cases hlink : e.link = link
    · simp [hlink]
    · cases hflags : inner.published.get? e.bucketId with
      | none => simp [FinMap.get?_put_of_ne _ _ hlink, hlink]
      | some flags => simp [FinMap.get?_put_of_ne _ _ hlink, hlink]
  · rw [FinMap.get?_put_of_ne _ _ hid, if_neg (fun hboth => hid hboth.1)]

theorem Records.mem_linksAt_iff (h : inner.Records entries) {id : Uuid} {height : ℕ}
    {link : Link} :
    link ∈ inner.linksAt id height ↔
      ∃ f ∈ entries, f.bucketId = id ∧ f.height = height ∧ f.link = link := by
  rw [h.links]
  simp only [entriesAt, List.mem_map, List.mem_filter, decide_eq_true_eq, and_assoc]

/-- `append` checks what the records ask for. -/
theorem Records.appendError_eq_none_iff (h : inner.Records entries) :
    appendError ((inner.entries.get? e.bucketId).getD KeyedMap.empty) e.link e.previous
        e.height = none ↔
      e.Admitted {f | f ∈ entries} := by
  have hlinks : ∀ height link,
      link ∈ (FinMap.get? ((inner.entries.get? e.bucketId).getD KeyedMap.empty)
        height).getD [] ↔
      ∃ f ∈ entries, f.bucketId = e.bucketId ∧ f.height = height ∧ f.link = link := by
    intro height link
    rw [← linksAt_eq]
    exact h.mem_linksAt_iff
  have hfresh : e.link ∉ (FinMap.get? ((inner.entries.get? e.bucketId).getD
      KeyedMap.empty) e.height).getD [] ↔
      ∀ f ∈ ({f | f ∈ entries} : Set LogEntry), ¬ f.SameSlot e := by
    rw [hlinks]
    constructor
    · intro hnone f hf hsame
      exact hnone ⟨f, hf, hsame⟩
    · rintro hnone ⟨f, hf, hsame⟩
      exact hnone f hf hsame
  unfold appendError Admitted Supported
  by_cases hconflict : e.link ∈ (FinMap.get? ((inner.entries.get? e.bucketId).getD
      KeyedMap.empty) e.height).getD []
  · rw [if_pos hconflict]
    constructor
    · intro habsurd
      contradiction
    · intro hadmitted
      exact absurd hconflict (hfresh.mpr hadmitted.1)
  · rw [if_neg hconflict, and_iff_right (hfresh.mp hconflict)]
    cases hprevious : e.previous with
    | none => simp
    | some prevLink =>
        dsimp only
        by_cases hzero : e.height = 0
        · rw [if_pos hzero]
          constructor
          · intro habsurd
            contradiction
          · rintro ⟨below, _, hextends⟩
            have hheight := hextends.2.2
            omega
        · rw [if_neg hzero]
          have hbelow : prevLink ∈ (FinMap.get? ((inner.entries.get? e.bucketId).getD
              KeyedMap.empty) (e.height - 1)).getD [] ↔
              ∃ below ∈ {f | f ∈ entries}, below.Extends e := by
            rw [hlinks]
            constructor
            · rintro ⟨f, hf, hid, hheight, hlink⟩
              exact ⟨f, hf, hid, by rw [hprevious, hlink], by omega⟩
            · rintro ⟨f, hf, hid, hlink, hheight⟩
              rw [hprevious] at hlink
              exact ⟨f, hf, hid, by omega, (Option.some.inj hlink).symm⟩
          rw [← hbelow]
          split_ifs with hmem <;> simp [hmem]

/-- An accepted append adds its entry to the records. -/
theorem Records.append_of_admitted (h : inner.Records entries) (name : Name)
    (hadmitted : e.Admitted {f | f ∈ entries}) :
    (inner.append e.bucketId name e.link e.previous e.height e.published).1 = .ok () ∧
      (inner.append e.bucketId name e.link e.previous e.height e.published).2.Records
        (entries ++ [e]) := by
  have hnone := h.appendError_eq_none_iff.mpr hadmitted
  refine ⟨append_of_none hnone, ?_, ?_, ?_, ?_⟩
  · intro id height
    rw [linksAt_append, h.links, entriesAt, entriesAt, List.filter_append]
    by_cases hat : id = e.bucketId ∧ height = e.height
    · simp [hnone, hat.1, hat.2]
    · rw [if_neg (fun hif => hat hif.2), List.filter_singleton]
      have hnot : ¬ (e.bucketId = id ∧ e.height = height) :=
        fun hsame => hat ⟨hsame.1.symm, hsame.2.symm⟩
      simp [hnot]
  · intro id link
    rw [heightsOf_append, h.heights, entriesOf, entriesOf, List.filter_append]
    by_cases hat : id = e.bucketId ∧ link = e.link
    · simp [hnone, hat.1, hat.2]
    · rw [if_neg (fun hif => hat hif.2), List.filter_singleton]
      have hnot : ¬ (e.bucketId = id ∧ e.link = link) :=
        fun hsame => hat ⟨hsame.1.symm, hsame.2.symm⟩
      simp [hnot]
  · intro id
    rw [heightsIn_append_singleton, maxHeights_append_of_none hnone]
    split_ifs with hid
    · rw [hid]
      exact (h.top id).insert e.height
    · exact h.top id
  · intro id link
    rw [flag_append_of_none hnone, entriesOf, List.filter_append, List.filter_singleton]
    by_cases hat : e.bucketId = id ∧ e.link = link
    · simp [hat]
    · rw [if_neg hat, h.flags]
      simp [hat, entriesOf]

/-- A rejected append leaves the records as they are. -/
theorem Records.append_of_not_admitted (h : inner.Records entries) (name : Name)
    (hadmitted : ¬ e.Admitted {f | f ∈ entries}) :
    (∃ error, (inner.append e.bucketId name e.link e.previous e.height e.published).1 =
      .error error) ∧
      (inner.append e.bucketId name e.link e.previous e.height e.published).2.Records
        entries := by
  have hsome := mt h.appendError_eq_none_iff.mp hadmitted
  obtain ⟨error, herror⟩ := Option.ne_none_iff_exists'.mp hsome
  refine ⟨⟨error, append_of_some herror⟩, ?_, ?_, ?_, ?_⟩
  · intro id height
    rw [linksAt_append, if_neg (fun hif => hsome hif.1), h.links]
  · intro id link
    rw [heightsOf_append, if_neg (fun hif => hsome hif.1), h.heights]
  · intro id
    have htop := h.top id
    unfold append
    simp only [herror]
    exact htop
  · intro id link
    rw [← h.flags]
    unfold append
    simp only [herror]

end

/-! ### The latest published version -/

section

variable {flags : FinMap Link Bool} {inner : MemoryBucketLogProviderInner}

/-- The first published link of a height. -/
def firstPublished (flags : FinMap Link Bool) (links : List Link) : Option Link :=
  links.find? (fun link => (flags.get? link).getD false)

/-- What the loop has found after the given heights. -/
def Latest (flags : FinMap Link Bool) (seen : List (ℕ × List Link)) :
    Option (Link × ℕ) → Prop
  | none => ∀ heightLinks ∈ seen, firstPublished flags heightLinks.2 = none
  | some (link, best) =>
      (∃ links, (best, links) ∈ seen ∧ firstPublished flags links = some link) ∧
      ∀ heightLinks ∈ seen, best < heightLinks.1 →
        firstPublished flags heightLinks.2 = none

theorem latestAtHeight_eq (best : Option (Link × ℕ)) (height : ℕ) (links : List Link) :
    latestAtHeight flags best height links =
      if best.all (fun found => decide (height > found.2)) then
        ((firstPublished flags links).map (fun link => (link, height))).or best
      else best := by
  unfold latestAtHeight firstPublished
  induction links generalizing best with
  | nil => simp
  | cons link rest ih =>
      rw [List.foldl_cons, ih, List.find?_cons]
      cases hflag : (flags.get? link).getD false with
      | false => simp
      | true =>
          by_cases hbest : best.all (fun found => decide (height > found.2)) = true
          · simp [hbest]
          · simp [hbest]

theorem Latest.step {seen : List (ℕ × List Link)} {best : Option (Link × ℕ)}
    (h : Latest flags seen best) (height : ℕ) (links : List Link) :
    Latest flags (seen ++ [(height, links)]) (latestAtHeight flags best height links) := by
  rw [latestAtHeight_eq]
  cases hfirst : firstPublished flags links with
  | none =>
      have hsame : (if best.all (fun found => decide (height > found.2)) = true then
          ((none : Option Link).map (fun link => (link, height))).or best else best) =
            best := by
        split_ifs <;> rfl
      rw [hsame]
      cases best with
      | none =>
          change ∀ heightLinks ∈ _, _
          intro heightLinks hmem
          rcases List.mem_append.mp hmem with hold | hnew
          · exact h heightLinks hold
          · rw [List.mem_singleton] at hnew
            rw [hnew]
            exact hfirst
      | some found =>
          obtain ⟨⟨olds, holds, hfound⟩, hlater⟩ := h
          refine ⟨⟨olds, List.mem_append_left _ holds, hfound⟩, ?_⟩
          intro heightLinks hmem hhigher
          rcases List.mem_append.mp hmem with hold | hnew
          · exact hlater heightLinks hold hhigher
          · rw [List.mem_singleton] at hnew
            rw [hnew]
            exact hfirst
  | some link =>
      cases best with
      | none =>
          refine ⟨⟨links, by simp, hfirst⟩, ?_⟩
          intro heightLinks hmem hhigher
          rcases List.mem_append.mp hmem with hold | hnew
          · exact h heightLinks hold
          · rw [List.mem_singleton.mp hnew] at hhigher
            exact absurd hhigher (lt_irrefl height)
      | some found =>
          obtain ⟨foundLink, foundHeight⟩ := found
          obtain ⟨⟨olds, holds, hfound⟩, hlater⟩ := h
          by_cases hhigher : height > foundHeight
          · rw [if_pos (by simpa using hhigher)]
            refine ⟨⟨links, by simp, hfirst⟩, ?_⟩
            intro heightLinks hmem habove
            rcases List.mem_append.mp hmem with hold | hnew
            · exact hlater heightLinks hold (hhigher.trans habove)
            · rw [List.mem_singleton.mp hnew] at habove
              exact absurd habove (lt_irrefl height)
          · rw [if_neg (by simpa using hhigher)]
            refine ⟨⟨olds, List.mem_append_left _ holds, hfound⟩, ?_⟩
            intro heightLinks hmem habove
            rcases List.mem_append.mp hmem with hold | hnew
            · exact hlater heightLinks hold habove
            · rw [List.mem_singleton.mp hnew] at habove
              exact absurd habove hhigher

theorem Latest.foldl (rest : List (ℕ × List Link)) {seen : List (ℕ × List Link)}
    {best : Option (Link × ℕ)} (h : Latest flags seen best) :
    Latest flags (seen ++ rest) (rest.foldl (fun best heightLinks =>
      latestAtHeight flags best heightLinks.1 heightLinks.2) best) := by
  induction rest generalizing seen best with
  | nil => simpa using h
  | cons heightLinks rest ih =>
      rw [List.append_cons, List.foldl_cons]
      exact ih (h.step heightLinks.1 heightLinks.2)

theorem Records.isPublished_eq {entries : List LogEntry} (h : inner.Records entries)
    (id : Uuid) : inner.isPublished id = flagged entries id := by
  funext link
  unfold isPublished flagged
  rw [h.flags]

theorem Records.flags_eq {entries : List LogEntry} (h : inner.Records entries) {id : Uuid}
    {flags : FinMap Link Bool} (hflags : inner.published.get? id = some flags) :
    (fun link => (flags.get? link).getD false) = flagged entries id := by
  rw [← h.isPublished_eq id]
  funext link
  simp [isPublished, hflags]

/-- The link of an entry is among those at its height. -/
theorem Records.exists_links {entries : List LogEntry} (h : inner.Records entries) {e : LogEntry}
    (he : e ∈ entries) : ∃ heights links, inner.entries.get? e.bucketId = some heights ∧
      (e.height, links) ∈ heights.toList ∧ e.link ∈ links := by
  have hmem : e.link ∈ inner.linksAt e.bucketId e.height :=
    h.mem_linksAt_iff.mpr ⟨e, he, rfl, rfl, rfl⟩
  unfold linksAt at hmem
  cases hheights : inner.entries.get? e.bucketId with
  | none => simp [hheights] at hmem
  | some heights =>
      rw [hheights, Option.bind_some] at hmem
      cases hlinks : heights.get? e.height with
      | none => simp [hlinks] at hmem
      | some links =>
          rw [hlinks] at hmem
          exact ⟨heights, links, rfl, FinMap.get?_eq_some_iff.mp hlinks, hmem⟩

/-- An entry is not published when no link at its height is. -/
theorem Records.flagged_eq_false {entries : List LogEntry} (h : inner.Records entries)
    {flags : FinMap Link Bool} {heights : FinMap ℕ (List Link)} {e : LogEntry}
    (hflags : inner.published.get? e.bucketId = some flags)
    (hheights : inner.entries.get? e.bucketId = some heights) (he : e ∈ entries)
    (hnone : ∀ links, (e.height, links) ∈ heights.toList → firstPublished flags links = none) :
    flagged entries e.bucketId e.link = false := by
  obtain ⟨found, links, hfound, hlinks, hmem⟩ := h.exists_links he
  rw [hheights] at hfound
  cases hfound
  have hall := List.find?_eq_none.mp (hnone links hlinks) e.link hmem
  rw [← h.flags_eq hflags]
  simpa using hall

theorem Records.isLatestPublished {entries : List LogEntry} (h : inner.Records entries)
    (id : Uuid) : IsLatestPublished entries id (inner.latestPublished id) := by
  unfold latestPublished
  cases hflags : inner.published.get? id with
  | none =>
      intro e _ _
      rw [← h.isPublished_eq id]
      simp [isPublished, hflags]
  | some flags =>
      cases hheights : inner.entries.get? id with
      | none =>
          intro e he hid
          obtain ⟨heights, _, hfound, _⟩ := h.exists_links he
          rw [hid, hheights] at hfound
          contradiction
      | some heights =>
          have hlatest := Latest.foldl heights.toList
            (show Latest flags [] none by simp [Latest])
          rw [List.nil_append] at hlatest
          dsimp only
          cases hbest : heights.toList.foldl (fun best heightLinks =>
              latestAtHeight flags best heightLinks.1 heightLinks.2) none with
          | none =>
              rw [hbest] at hlatest
              rintro e he rfl
              exact h.flagged_eq_false hflags hheights he (fun links hlinks => hlatest _ hlinks)
          | some found =>
              obtain ⟨link, best⟩ := found
              rw [hbest] at hlatest
              obtain ⟨⟨links, hlinks, hfirst⟩, hlater⟩ := hlatest
              constructor
              · have hlinksAt : (entriesAt entries id best).map LogEntry.link = links := by
                  rw [← h.links, linksAt, hheights, Option.bind_some,
                    FinMap.get?_eq_some_iff.mpr hlinks]
                  rfl
                rw [hlinksAt, ← h.flags_eq hflags]
                exact hfirst
              · rintro e he rfl hhigher
                exact h.flagged_eq_false hflags hheights he
                  (fun links hlinks => hlater _ hlinks hhigher)

end

end MemoryBucketLogProviderInner

end JaxFs

import JaxFs.KeyedMap
import JaxFs.LinkedData
import Mathlib.Order.MinMax

/-!
# Bucket logs

`bucket_log/provider.rs` and `bucket_log/memory.rs`.  A provider is a state with
the methods of the trait; an append returns its verdict together with the state
it leaves behind, since a rejected append may have written.  `Logged` is the one
observation the rest of the development speaks about, and a lawful provider is
one whose methods agree with it.

The in-memory provider keeps the links of a height and an index from links to
heights side by side.  Its state carries the proof that the two agree.
-/

namespace JaxFs

/-- `BucketLogError`, with the text of a provider's own error. -/
inductive BucketLogError where
  | provider (message : String)
  | headNotFound (height : ℕ)
  | conflict
  | invalidAppend (current previous : Link) (height : ℕ)
  deriving DecidableEq

/-- `Display` of the error. -/
def BucketLogError.message : BucketLogError → String
  | .provider message => "unhandled bucket log provider error: " ++ message
  | .headNotFound height => "head not found at height " ++ toString height
  | .conflict => "conflict with current log entry"
  | .invalidAppend current previous height =>
      "invalid append: " ++ String.ofList current.hash.toName ++ ", " ++
        String.ofList previous.hash.toName ++ ", " ++ toString height

class BucketLogProvider (σ : Type) where
  «exists» : σ → Uuid → Except BucketLogError Bool
  heads : σ → Uuid → ℕ → Except BucketLogError (List Link)
  append : σ → Uuid → Name → Link → Option Link → ℕ → Bool →
    Except BucketLogError Unit × σ
  height : σ → Uuid → Except BucketLogError ℕ
  has : σ → Uuid → Link → Except BucketLogError (List ℕ)

namespace BucketLogProvider

variable {σ : Type} [BucketLogProvider σ]

/-- The default method `head`: the greatest link at the given height, or at the
greatest height. -/
def head (log : σ) (id : Uuid) (height? : Option ℕ) :
    Except BucketLogError (Link × ℕ) := do
  let top ← height log id
  let height := height?.getD top
  let links ← heads log id height
  match links.maximum with
  | some link => pure (link, height)
  | none => throw (.headNotFound height)

/-- The log holds `link` for the bucket at the given height. -/
def Logged (log : σ) (id : Uuid) (height : ℕ) (link : Link) : Prop :=
  ∃ links, heads log id height = .ok links ∧ link ∈ links

/-- The logs hold the same links at the same heights. -/
def SameEntries (log log' : σ) : Prop :=
  ∀ id height link, Logged log' id height link ↔ Logged log id height link

end BucketLogProvider

open BucketLogProvider

class LawfulBucketLogProvider (σ : Type) [BucketLogProvider σ] : Prop where
  logged_append : ∀ {log log' : σ} {id name current previous height published},
    append log id name current previous height published = (.ok (), log') →
    ∀ id' height' link, Logged log' id' height' link ↔
      Logged log id' height' link ∨ (id' = id ∧ height' = height ∧ link = current)
  logged_append_error :
    ∀ {log log' : σ} {id name current previous height published error},
    append log id name current previous height published = (.error error, log') →
    ∀ id' height' link, Logged log' id' height' link ↔ Logged log id' height' link
  append_previous : ∀ {log log' : σ} {id name current link height published},
    append log id name current (some link) height published = (.ok (), log') →
    ∃ below, height = below + 1 ∧ Logged log id below link
  mem_has : ∀ {log : σ} {id link heights}, has log id link = .ok heights →
    ∀ height, height ∈ heights ↔ Logged log id height link
  not_logged_of_not_exists : ∀ {log : σ} {id},
    BucketLogProvider.exists log id = .ok false →
    ∀ height link, ¬ Logged log id height link

/-! ## The in-memory provider -/

structure MemoryBucketLogProviderInner where
  entries : FinMap Uuid (FinMap ℕ (List Link))
  maxHeights : FinMap Uuid ℕ
  linkIndex : FinMap Uuid (FinMap Link (List ℕ))
  names : FinMap Uuid Name
  published : FinMap Uuid (FinMap Link Bool)

namespace MemoryBucketLogProviderInner

def default : MemoryBucketLogProviderInner :=
  ⟨KeyedMap.empty, KeyedMap.empty, KeyedMap.empty, KeyedMap.empty, KeyedMap.empty⟩

def linksAt (inner : MemoryBucketLogProviderInner) (id : Uuid) (height : ℕ) :
    List Link :=
  ((inner.entries.get? id).bind (fun heights => heights.get? height)).getD []

def heightsOf (inner : MemoryBucketLogProviderInner) (id : Uuid) (link : Link) :
    List ℕ :=
  ((inner.linkIndex.get? id).bind (fun links => links.get? link)).getD []

/-- What `append` objects to, once the bucket's entry exists. -/
def appendError (bucketEntries : FinMap ℕ (List Link)) (current : Link)
    (previous : Option Link) (height : ℕ) : Option BucketLogError :=
  if current ∈ (bucketEntries.get? height).getD [] then some .conflict
  else
    match previous with
    | some prevLink =>
        if height = 0 then some (.invalidAppend current prevLink height)
        else if prevLink ∈ (bucketEntries.get? (height - 1)).getD [] then none
        else some (.invalidAppend current prevLink (height - 1))
    | none =>
        if height ≠ 0 then some (.invalidAppend current Link.default height)
        else none

/-- `append`.  The name and an empty entry for the bucket are written before the
checks. -/
def append (inner : MemoryBucketLogProviderInner) (id : Uuid) (name : Name)
    (current : Link) (previous : Option Link) (height : ℕ) (published : Bool) :
    Except BucketLogError Unit × MemoryBucketLogProviderInner :=
  let bucketEntries := (inner.entries.get? id).getD KeyedMap.empty
  let named :=
    { inner with
      names := inner.names.put id name
      entries := inner.entries.put id bucketEntries }
  match appendError bucketEntries current previous height with
  | some error => (.error error, named)
  | none =>
      let index := (inner.linkIndex.get? id).getD KeyedMap.empty
      let flags := (inner.published.get? id).getD KeyedMap.empty
      (.ok (),
        { named with
          entries := named.entries.put id
            (bucketEntries.put height
              ((bucketEntries.get? height).getD [] ++ [current]))
          maxHeights :=
            match inner.maxHeights.get? id with
            | some top =>
                if height > top then inner.maxHeights.put id height
                else inner.maxHeights
            | none => inner.maxHeights.put id height
          linkIndex := inner.linkIndex.put id
            (index.put current ((index.get? current).getD [] ++ [height]))
          published := inner.published.put id (flags.put current published) })

/-- The index lists a height for a link exactly when the link is at the height. -/
def Consistent (inner : MemoryBucketLogProviderInner) : Prop :=
  ∀ id height link,
    link ∈ inner.linksAt id height ↔ height ∈ inner.heightsOf id link

theorem consistent_default : default.Consistent := by
  intro id height link
  simp [linksAt, heightsOf, default]

section

variable {inner : MemoryBucketLogProviderInner} {id : Uuid} {name : Name}
  {current : Link} {previous : Option Link} {height : ℕ} {published : Bool}

theorem append_of_some {error : BucketLogError}
    (h : appendError ((inner.entries.get? id).getD KeyedMap.empty) current previous
      height = some error) :
    (inner.append id name current previous height published).1 = .error error := by
  unfold append
  simp only [h]

theorem append_of_none
    (h : appendError ((inner.entries.get? id).getD KeyedMap.empty) current previous
      height = none) :
    (inner.append id name current previous height published).1 = .ok () := by
  unfold append
  simp only [h]

theorem linksAt_eq (inner : MemoryBucketLogProviderInner) (id : Uuid) (height : ℕ) :
    inner.linksAt id height =
      (FinMap.get? ((inner.entries.get? id).getD KeyedMap.empty) height).getD [] := by
  unfold linksAt
  cases inner.entries.get? id with
  | none => simp
  | some heights => simp

theorem heightsOf_eq (inner : MemoryBucketLogProviderInner) (id : Uuid) (link : Link) :
    inner.heightsOf id link =
      (FinMap.get? ((inner.linkIndex.get? id).getD KeyedMap.empty) link).getD [] := by
  unfold heightsOf
  cases inner.linkIndex.get? id with
  | none => simp
  | some links => simp

/-- The links of every height after an append. -/
theorem linksAt_append (id' : Uuid) (height' : ℕ) :
    (inner.append id name current previous height published).2.linksAt id' height' =
      if appendError ((inner.entries.get? id).getD KeyedMap.empty) current previous
          height = none ∧ id' = id ∧ height' = height then
        inner.linksAt id' height' ++ [current]
      else inner.linksAt id' height' := by
  rw [linksAt_eq, linksAt_eq]
  unfold append
  cases herror : appendError ((inner.entries.get? id).getD KeyedMap.empty) current
      previous height with
  | some error =>
      simp only [herror]
      by_cases hid : id = id'
      · simp [hid]
      · simp [FinMap.get?_put_of_ne _ _ hid]
  | none =>
      simp only [herror]
      by_cases hid : id = id'
      · subst hid
        by_cases hheight : height = height'
        · subst hheight
          simp
        · simp [FinMap.get?_put_of_ne _ _ hheight, Ne.symm hheight]
      · simp [FinMap.get?_put_of_ne _ _ hid, Ne.symm hid]

/-- The heights of every link after an append. -/
theorem heightsOf_append (id' : Uuid) (link : Link) :
    (inner.append id name current previous height published).2.heightsOf id' link =
      if appendError ((inner.entries.get? id).getD KeyedMap.empty) current previous
          height = none ∧ id' = id ∧ link = current then
        inner.heightsOf id' link ++ [height]
      else inner.heightsOf id' link := by
  rw [heightsOf_eq, heightsOf_eq]
  unfold append
  cases herror : appendError ((inner.entries.get? id).getD KeyedMap.empty) current
      previous height with
  | some error =>
      simp only [herror]
      simp
  | none =>
      simp only [herror]
      by_cases hid : id = id'
      · subst hid
        by_cases hlink : current = link
        · subst hlink
          simp
        · simp [FinMap.get?_put_of_ne _ _ hlink, Ne.symm hlink]
      · simp [FinMap.get?_put_of_ne _ _ hid, Ne.symm hid]

theorem Consistent.append (hconsistent : inner.Consistent) :
    (inner.append id name current previous height published).2.Consistent := by
  intro id' height' link
  rw [linksAt_append, heightsOf_append]
  have hold := hconsistent id' height' link
  by_cases hok : appendError ((inner.entries.get? id).getD KeyedMap.empty) current
      previous height = none ∧ id' = id
  · obtain ⟨herror, hid⟩ := hok
    by_cases hlink : link = current
    · by_cases hheight : height' = height
      · simp [herror, hid, hlink, hheight]
      · simp [herror, hid, hlink, hheight, hid ▸ hlink ▸ hold]
    · by_cases hheight : height' = height
      · simp [herror, hid, hlink, hheight, hid ▸ hheight ▸ hold]
      · simp [herror, hid, hlink, hheight, hid ▸ hold]
  · rw [if_neg (fun h => hok ⟨h.1, h.2.1⟩), if_neg (fun h => hok ⟨h.1, h.2.1⟩)]
    exact hold

end

end MemoryBucketLogProviderInner

/-- `MemoryBucketLogProvider`: the maps behind the lock, in agreement. -/
structure MemoryBucketLogProvider where
  inner : MemoryBucketLogProviderInner
  consistent : inner.Consistent

namespace MemoryBucketLogProvider

open MemoryBucketLogProviderInner

def new : MemoryBucketLogProvider := ⟨default, consistent_default⟩

instance : BucketLogProvider MemoryBucketLogProvider where
  «exists» log id := .ok (log.inner.entries.contains id)
  heads log id height := .ok (log.inner.linksAt id height)
  append log id name current previous height published :=
    ((log.inner.append id name current previous height published).1,
      ⟨(log.inner.append id name current previous height published).2,
        log.consistent.append⟩)
  height log id :=
    match log.inner.maxHeights.get? id with
    | some top => .ok top
    | none => .error (.headNotFound 0)
  has log id link := .ok (log.inner.heightsOf id link)

theorem logged_iff {log : MemoryBucketLogProvider} {id : Uuid} {height : ℕ}
    {link : Link} : Logged log id height link ↔ link ∈ log.inner.linksAt id height := by
  constructor
  · rintro ⟨links, hlinks, hmem⟩
    cases hlinks
    exact hmem
  · intro hmem
    exact ⟨_, rfl, hmem⟩

theorem appendError_eq_none_previous {bucketEntries : FinMap ℕ (List Link)}
    {current link : Link} {height : ℕ}
    (h : appendError bucketEntries current (some link) height = none) :
    ∃ below, height = below + 1 ∧ link ∈ (bucketEntries.get? below).getD [] := by
  unfold appendError at h
  dsimp only at h
  split_ifs at h with hconflict hzero hlink
  exact ⟨height - 1, by omega, hlink⟩

instance : LawfulBucketLogProvider MemoryBucketLogProvider where
  logged_append := by
    intro log log' id name current previous height published happend id' height' link
    obtain ⟨hresult, rfl⟩ := Prod.mk.inj happend
    have herror : appendError ((log.inner.entries.get? id).getD KeyedMap.empty)
        current previous height = none := by
      cases herror : appendError ((log.inner.entries.get? id).getD KeyedMap.empty)
          current previous height with
      | none => rfl
      | some error =>
          rw [append_of_some herror] at hresult
          contradiction
    rw [logged_iff, logged_iff, linksAt_append]
    by_cases hat : id' = id ∧ height' = height
    · simp [herror, hat.1, hat.2]
    · rw [if_neg (fun h => hat h.2)]
      constructor
      · exact Or.inl
      · intro h
        exact h.resolve_right (fun hnew => hat ⟨hnew.1, hnew.2.1⟩)
  logged_append_error := by
    intro log log' id name current previous height published error happend id' height'
      link
    obtain ⟨hresult, rfl⟩ := Prod.mk.inj happend
    have herror : appendError ((log.inner.entries.get? id).getD KeyedMap.empty)
        current previous height ≠ none := by
      intro hnone
      rw [append_of_none hnone] at hresult
      contradiction
    rw [logged_iff, logged_iff, linksAt_append, if_neg (fun h => herror h.1)]
  append_previous := by
    intro log log' id name current link height published happend
    obtain ⟨hresult, rfl⟩ := Prod.mk.inj happend
    cases herror : appendError ((log.inner.entries.get? id).getD KeyedMap.empty)
        current (some link) height with
    | some error =>
        rw [append_of_some herror] at hresult
        contradiction
    | none =>
        obtain ⟨below, hheight, hlink⟩ := appendError_eq_none_previous herror
        refine ⟨below, hheight, logged_iff.mpr ?_⟩
        rw [linksAt_eq]
        exact hlink
  mem_has := by
    intro log id link heights hhas height
    cases hhas
    rw [logged_iff]
    exact (log.consistent id height link).symm
  not_logged_of_not_exists := by
    intro log id hexists height link hlogged
    rw [logged_iff, linksAt_eq] at hlogged
    have hcontains : log.inner.entries.contains id = false := Except.ok.inj hexists
    have hnone : log.inner.entries.get? id = none := by
      unfold FinMap.get?
      rw [Option.map_eq_none_iff, ← Option.not_isSome_iff_eq_none]
      exact Bool.eq_false_iff.mp hcontains
    simp [hnone] at hlogged

end MemoryBucketLogProvider

end JaxFs

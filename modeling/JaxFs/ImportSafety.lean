import JaxFs.ObjectStoreExports
import JaxFs.Unsigned

/-!
# Sums of an import

`import_bao` adds up offsets and lengths that come from the network.  A build with overflow
checks panics where a sum does not fit into 64 bits, and one without them may take a leaf
that ends behind its place for one that fits.
-/

namespace JaxFs

namespace ObjectStore

/-! ## The loop -/

/-- The buffers of an import, and what it counts. -/
structure ImportProgress where
  buffers : BaoBuffers
  leafCount : ℕ
  parentCount : ℕ
  bytesReceived : ℕ

def ImportProgress.new (size : ℕ) : ImportProgress := ⟨BaoBuffers.new size, 0, 0, 0⟩

/-- `copyInto` in either build. -/
def copyIntoChecked (checks : Bool) (buffer : Bytes) (start : ℕ) (bytes : Bytes) :
    Option Bytes := do
  let stop ← unsigned checks 64 (start + bytes.length)
  if stop ≤ buffer.length then
    if start ≤ stop then some (buffer.take start ++ bytes ++ buffer.drop stop) else none
  else some buffer

section

variable (preOrderOffset : ℕ → ℕ → Option ℕ)

/-- An item in a build with or without overflow checks; `none` is a panic. -/
def ImportProgress.receive (checks : Bool) (size : ℕ) (progress : ImportProgress) :
    BaoContentItem → Option ImportProgress
  | .parent node left right => do
      let parentCount ← unsigned checks 64 (progress.parentCount + 1)
      match preOrderOffset size node with
      | none => some { progress with parentCount := parentCount }
      | some offset => do
          let start ← unsigned checks 64 (offset * 64)
          let outboard ← copyIntoChecked checks progress.buffers.outboard start
            (left.val ++ right.val)
          some { progress with
            buffers := { progress.buffers with outboard := outboard }
            parentCount := parentCount }
  | .leaf offset data => do
      let leafCount ← unsigned checks 64 (progress.leafCount + 1)
      let bytesReceived ← unsigned checks 64 (progress.bytesReceived + data.length)
      let data ← copyIntoChecked checks progress.buffers.data offset data
      some { progress with
        buffers := { progress.buffers with data := data }
        leafCount := leafCount
        bytesReceived := bytesReceived }

def ImportProgress.receiveAll (checks : Bool) (size : ℕ) (items : List BaoContentItem) :
    Option ImportProgress :=
  items.foldlM (ImportProgress.receive preOrderOffset checks size) (ImportProgress.new size)

/-- `import_bao` up to the call of `put`. -/
def importBao (hashOf : Bytes → Hash) (checks : Bool) (hash : Hash) (size : ℕ)
    (items : List BaoContentItem) : Task :=
  if maxImportSize < size then .replied (.importedBao (.error .tooLarge))
  else
    match ImportProgress.receiveAll preOrderOffset checks size items with
    | none => .replied .panicked
    | some progress =>
        if hashOf progress.buffers.data = hash then .storing .importBao (.put progress.buffers.data)
        else .replied (.importedBao (.error .hashMismatch))

/-! ## What the items are -/

def BaoContentItem.leafCount : BaoContentItem → ℕ
  | .parent _ _ _ => 0
  | .leaf _ _ => 1

def BaoContentItem.parentCount : BaoContentItem → ℕ
  | .parent _ _ _ => 1
  | .leaf _ _ => 0

def BaoContentItem.byteCount : BaoContentItem → ℕ
  | .parent _ _ _ => 0
  | .leaf _ data => data.length

/-- The item ends below `2 ^ 64`. -/
def BaoContentItem.EndFits (size : ℕ) : BaoContentItem → Prop
  | .parent node _ _ => ∀ offset, preOrderOffset size node = some offset →
      offset * 64 + 64 < 2 ^ 64
  | .leaf offset data => offset + data.length < 2 ^ 64

/-- The items end below `2 ^ 64`, and there are not too many to be counted. -/
structure ItemsFit (size : ℕ) (items : List BaoContentItem) : Prop where
  ends : ∀ item ∈ items, item.EndFits preOrderOffset size
  leaves : (items.map BaoContentItem.leafCount).sum < 2 ^ 64
  parents : (items.map BaoContentItem.parentCount).sum < 2 ^ 64
  bytes : (items.map BaoContentItem.byteCount).sum < 2 ^ 64

/-! ## What an import is for -/

/-- A piece is written where it belongs, and one that does not fit is ignored. -/
def overwrite (buffer : Bytes) (piece : Leaf) : Bytes :=
  if piece.stop ≤ buffer.length then Piece.place buffer piece else buffer

def BaoBuffers.accept (size : ℕ) (buffers : BaoBuffers) : BaoContentItem → BaoBuffers
  | .parent node left right =>
      match preOrderOffset size node with
      | none => buffers
      | some offset =>
          { buffers with
            outboard := overwrite buffers.outboard ⟨offset * 64, left.val ++ right.val⟩ }
  | .leaf offset data => { buffers with data := overwrite buffers.data ⟨offset, data⟩ }

/-- The counts without a bound. -/
def ImportProgress.accept (size : ℕ) (progress : ImportProgress) (item : BaoContentItem) :
    ImportProgress :=
  ⟨progress.buffers.accept preOrderOffset size item, progress.leafCount + item.leafCount,
    progress.parentCount + item.parentCount, progress.bytesReceived + item.byteCount⟩

end

/-- The counts are below `2 ^ 64`. -/
structure ImportProgress.Bounded (progress : ImportProgress) : Prop where
  leaves : progress.leafCount < 2 ^ 64
  parents : progress.parentCount < 2 ^ 64
  bytes : progress.bytesReceived < 2 ^ 64

/-! ## Steps -/

section

variable {preOrderOffset : ℕ → ℕ → Option ℕ} {checks : Bool} {buffer result : Bytes}
  {start size : ℕ} {bytes : Bytes} {item : BaoContentItem}

/-- Without checks it is what the store's actor does. -/
theorem copyIntoChecked_false : copyIntoChecked false buffer start bytes =
    copyInto buffer start bytes := by
  unfold copyIntoChecked copyInto
  rw [unsigned_false]
  rfl

theorem copyIntoChecked_of_lt (h : start + bytes.length < 2 ^ 64) :
    copyIntoChecked checks buffer start bytes = some (overwrite buffer ⟨start, bytes⟩) := by
  unfold copyIntoChecked overwrite
  rw [unsigned_of_lt h]
  change (if start + bytes.length ≤ buffer.length then
    if start ≤ start + bytes.length then some _ else none else some buffer) = _
  rw [if_pos (Nat.le_add_right _ _)]
  exact (apply_ite some _ _ _).symm

/-- A copy with checks either panics or is the one that ignores what does not fit. -/
theorem copyIntoChecked_true_bind_iff {β : Type*} {f : Bytes → Option β} {b : β} :
    (copyIntoChecked true buffer start bytes).bind f = some b ↔
      start + bytes.length < 2 ^ 64 ∧ f (overwrite buffer ⟨start, bytes⟩) = some b := by
  by_cases h : start + bytes.length < 2 ^ 64
  · rw [copyIntoChecked_of_lt h, and_iff_right h]
    rfl
  · have hnone : unsigned true 64 (start + bytes.length) = none := by
      rw [unsigned, if_neg h, if_pos rfl]
    unfold copyIntoChecked
    rw [hnone]
    constructor
    · intro hnone
      cases hnone
    · rintro ⟨hlt, -⟩
      exact absurd hlt h

variable {progress progress' : ImportProgress} {items : List BaoContentItem}

/-- A step that gets through the checks does what the item is for. -/
theorem ImportProgress.receive_true_iff (h : progress.Bounded) :
    progress.receive preOrderOffset true size item = some progress' ↔
      item.EndFits preOrderOffset size ∧ (progress.accept preOrderOffset size item).Bounded ∧
        progress.accept preOrderOffset size item = progress' := by
  cases item with
  | parent node left right =>
      have hpair : (left.val ++ right.val).length = 64 := by
        rw [List.length_append, left.property, right.property]
      unfold receive accept BaoBuffers.accept BaoContentItem.EndFits
      dsimp only
      rw [Option.bind_eq_bind, unsigned_true_bind_iff]
      cases hoffset : preOrderOffset size node with
      | none =>
          rw [Option.some.injEq]
          constructor
          · rintro ⟨hparents, hprogress⟩
            exact ⟨nofun, ⟨h.leaves, hparents, h.bytes⟩, hprogress⟩
          · rintro ⟨-, hbounded, hprogress⟩
            exact ⟨hbounded.parents, hprogress⟩
      | some offset =>
          dsimp only
          rw [Option.bind_eq_bind, unsigned_true_bind_iff, copyIntoChecked_true_bind_iff, hpair,
            Option.some.injEq]
          constructor
          · rintro ⟨hparents, -, hend, hprogress⟩
            refine ⟨?_, ⟨h.leaves, hparents, h.bytes⟩, hprogress⟩
            intro found hfound
            cases hfound
            exact hend
          · rintro ⟨hend, hbounded, hprogress⟩
            have hoffset := hend offset rfl
            exact ⟨hbounded.parents, by omega, hoffset, hprogress⟩
  | leaf offset data =>
      unfold receive
      dsimp only
      rw [Option.bind_eq_bind, unsigned_true_bind_iff, unsigned_true_bind_iff,
        Option.bind_eq_bind, copyIntoChecked_true_bind_iff, Option.some.injEq]
      constructor
      · rintro ⟨hleaves, hbytes, hend, hprogress⟩
        exact ⟨hend, ⟨hleaves, h.parents, hbytes⟩, hprogress⟩
      · rintro ⟨hend, hbounded, hprogress⟩
        exact ⟨hbounded.leaves, hbounded.bytes, hend, hprogress⟩

theorem copyIntoChecked_of_true (h : copyIntoChecked true buffer start bytes = some result) :
    copyIntoChecked checks buffer start bytes = some result := by
  obtain ⟨hlt, hresult⟩ := copyIntoChecked_true_bind_iff.mp ((Option.bind_fun_some _).trans h)
  rw [copyIntoChecked_of_lt hlt]
  exact hresult

/-- What gets through the checks is the same without them. -/
theorem ImportProgress.receive_of_true
    (h : progress.receive preOrderOffset true size item = some progress') :
    progress.receive preOrderOffset checks size item = some progress' := by
  cases item with
  | parent node left right =>
      unfold receive at h ⊢
      obtain ⟨parents, hparents, h⟩ := Option.bind_eq_some_iff.mp h
      apply Option.bind_eq_some_iff.mpr
      refine ⟨parents, unsigned_of_true hparents, ?_⟩
      cases hoffset : preOrderOffset size node with
      | none =>
          rw [hoffset] at h
          exact h
      | some offset =>
          rw [hoffset] at h
          obtain ⟨start, hstart, h⟩ := Option.bind_eq_some_iff.mp h
          obtain ⟨outboard, hcopy, h⟩ := Option.bind_eq_some_iff.mp h
          exact Option.bind_eq_some_iff.mpr ⟨start, unsigned_of_true hstart,
            Option.bind_eq_some_iff.mpr ⟨outboard, copyIntoChecked_of_true hcopy, h⟩⟩
  | leaf offset data =>
      unfold receive at h ⊢
      obtain ⟨leaves, hleaves, h⟩ := Option.bind_eq_some_iff.mp h
      obtain ⟨received, hbytes, h⟩ := Option.bind_eq_some_iff.mp h
      obtain ⟨data', hcopy, h⟩ := Option.bind_eq_some_iff.mp h
      exact Option.bind_eq_some_iff.mpr ⟨leaves, unsigned_of_true hleaves,
        Option.bind_eq_some_iff.mpr ⟨received, unsigned_of_true hbytes,
          Option.bind_eq_some_iff.mpr ⟨data', copyIntoChecked_of_true hcopy, h⟩⟩⟩

/-- Without checks an item does to the buffers what the store's actor does. -/
theorem ImportProgress.receive_false :
    (progress.receive preOrderOffset false size item).map ImportProgress.buffers =
      progress.buffers.receive preOrderOffset size item := by
  cases item with
  | parent node left right =>
      unfold receive BaoBuffers.receive
      dsimp only
      rw [unsigned_false]
      cases preOrderOffset size node with
      | none => rfl
      | some offset =>
          dsimp only
          rw [← copyIntoChecked_false, unsigned_false]
          change ((copyIntoChecked _ _ _ _).bind _).map _ = _
          cases copyIntoChecked false progress.buffers.outboard (offset * 64 % 2 ^ 64)
              (left.val ++ right.val) with
          | none => rfl
          | some outboard => rfl
  | leaf offset data =>
      unfold receive BaoBuffers.receive
      dsimp only
      rw [← copyIntoChecked_false, unsigned_false, unsigned_false]
      change ((copyIntoChecked _ _ _ _).bind _).map _ = _
      cases copyIntoChecked false progress.buffers.data offset data with
      | none => rfl
      | some data' => rfl

/-! ## Runs -/

theorem ImportProgress.foldl_accept :
    items.foldl (ImportProgress.accept preOrderOffset size) progress =
      ⟨items.foldl (BaoBuffers.accept preOrderOffset size) progress.buffers,
        progress.leafCount + (items.map BaoContentItem.leafCount).sum,
        progress.parentCount + (items.map BaoContentItem.parentCount).sum,
        progress.bytesReceived + (items.map BaoContentItem.byteCount).sum⟩ := by
  induction items generalizing progress with
  | nil => rfl
  | cons item rest ih =>
      rw [List.foldl_cons, ih]
      simp only [accept, List.foldl_cons, List.map_cons, List.sum_cons, Nat.add_assoc]

theorem ImportProgress.Bounded.of_foldl
    (h : (items.foldl (ImportProgress.accept preOrderOffset size) progress).Bounded) :
    progress.Bounded := by
  rw [foldl_accept] at h
  exact ⟨(Nat.le_add_right _ _).trans_lt h.leaves, (Nat.le_add_right _ _).trans_lt h.parents,
    (Nat.le_add_right _ _).trans_lt h.bytes⟩

/-- The loop gets through the checks when all that it adds up fits. -/
theorem ImportProgress.foldlM_receive_true_iff (h : progress.Bounded) :
    items.foldlM (ImportProgress.receive preOrderOffset true size) progress = some progress' ↔
      (∀ item ∈ items, item.EndFits preOrderOffset size) ∧
        (items.foldl (ImportProgress.accept preOrderOffset size) progress).Bounded ∧
          items.foldl (ImportProgress.accept preOrderOffset size) progress = progress' := by
  induction items generalizing progress with
  | nil =>
      rw [List.foldlM_nil, List.foldl_nil]
      constructor
      · intro hend
        cases hend
        exact ⟨nofun, h, rfl⟩
      · rintro ⟨-, -, rfl⟩
        rfl
  | cons item rest ih =>
      rw [List.foldlM_cons, List.forall_mem_cons, List.foldl_cons]
      constructor
      · intro hrun
        obtain ⟨next, hstep, hrest⟩ := Option.bind_eq_some_iff.mp hrun
        obtain ⟨hitem, hbounded, rfl⟩ := (receive_true_iff h).mp hstep
        obtain ⟨hitems, hend, hresult⟩ := (ih hbounded).mp hrest
        exact ⟨⟨hitem, hitems⟩, hend, hresult⟩
      · rintro ⟨⟨hitem, hitems⟩, hend, hresult⟩
        have hbounded : (progress.accept preOrderOffset size item).Bounded := hend.of_foldl
        exact Option.bind_eq_some_iff.mpr ⟨_, (receive_true_iff h).mpr ⟨hitem, hbounded, rfl⟩,
          (ih hbounded).mpr ⟨hitems, hend, hresult⟩⟩

theorem ImportProgress.receiveAll_true_iff :
    ImportProgress.receiveAll preOrderOffset true size items = some progress' ↔
      ItemsFit preOrderOffset size items ∧
        items.foldl (ImportProgress.accept preOrderOffset size) (ImportProgress.new size) =
          progress' := by
  have hnew : (ImportProgress.new size).Bounded := by
    constructor <;> exact Nat.two_pow_pos 64
  unfold receiveAll
  rw [foldlM_receive_true_iff hnew, ← and_assoc]
  apply and_congr_left
  intro _
  rw [foldl_accept]
  simp only [new, Nat.zero_add]
  constructor
  · rintro ⟨hends, hbounded⟩
    exact ⟨hends, hbounded.leaves, hbounded.parents, hbounded.bytes⟩
  · intro hfit
    exact ⟨hfit.ends, hfit.leaves, hfit.parents, hfit.bytes⟩

/-- Where everything fits, both builds do what the items are for. -/
theorem ImportProgress.receiveAll_of_fit (hfit : ItemsFit preOrderOffset size items) :
    ImportProgress.receiveAll preOrderOffset checks size items =
      some (items.foldl (ImportProgress.accept preOrderOffset size) (ImportProgress.new size)) :=
  foldlM_mono (fun _ _ _ => receive_of_true) (receiveAll_true_iff.mpr ⟨hfit, rfl⟩)

theorem ImportProgress.reassemble_eq : reassemble preOrderOffset size items =
    (ImportProgress.receiveAll preOrderOffset false size items).map
      (fun progress => progress.buffers.data) := by
  have hrun : ∀ progress : ImportProgress,
      (items.foldlM (ImportProgress.receive preOrderOffset false size) progress).map
          ImportProgress.buffers =
        items.foldlM (BaoBuffers.receive preOrderOffset size) progress.buffers := by
    induction items with
    | nil => exact fun _ => rfl
    | cons item rest ih =>
        intro progress
        rw [List.foldlM_cons, List.foldlM_cons, ← receive_false]
        cases progress.receive preOrderOffset false size item with
        | none => rfl
        | some next => exact ih next
  have hnew := hrun (ImportProgress.new size)
  unfold reassemble receiveAll
  change Option.map BaoBuffers.data
    (items.foldlM (BaoBuffers.receive preOrderOffset size) (ImportProgress.new size).buffers) = _
  rw [← hnew, Option.map_map]
  rfl

end

/-! ## Replies -/

/-- A turn of a task, on the store as the other tasks have left it. -/
structure Visit where
  fate : Fate
  now : ℤ
  store : BlobStore

/-- A task replies as it comes to its end; one that panics only drops its channel. -/
def Task.sends : Task → Task → List Reply
  | .replied _, _ => []
  | _, .replied .panicked => []
  | _, .replied reply => [reply]
  | _, _ => []

section

variable (hashOf : Bytes → Hash) (preOrderOffset : ℕ → ℕ → Option ℕ)

/-- A turn in a build with or without overflow checks. -/
def Task.moveChecked (checks : Bool) (visit : Visit) : Task → Task
  | .received (.importBao hash size items) =>
      importBao preOrderOffset hashOf checks hash size items
  | task => (task.move hashOf preOrderOffset visit.fate visit.now visit.store).2

def Task.replies (checks : Bool) (task : Task) : List Visit → List Reply
  | [] => []
  | visit :: rest =>
      task.sends (task.moveChecked hashOf preOrderOffset checks visit) ++
        Task.replies checks (task.moveChecked hashOf preOrderOffset checks visit) rest

/-- In either build nothing panics and what does not fit is ignored, and the task sends one
reply. -/
structure ImportSafe (hash : Hash) (size : ℕ) (items : List BaoContentItem) : Prop where
  received : size ≤ maxImportSize → ∀ checks, ∃ progress,
    ImportProgress.receiveAll preOrderOffset checks size items = some progress ∧
      progress.buffers = items.foldl (BaoBuffers.accept preOrderOffset size) (BaoBuffers.new size)
  replies : ∀ checks (visits : List Visit), 3 ≤ visits.length →
    ∃ result, Task.replies hashOf preOrderOffset checks (.received (.importBao hash size items))
      visits = [.importedBao result]

end

section

variable {hashOf : Bytes → Hash} {preOrderOffset : ℕ → ℕ → Option ℕ} {checks : Bool}
  {hash : Hash} {size : ℕ} {items : List BaoContentItem}

theorem begin_importBao_eq (fate : Fate) :
    (Command.importBao hash size items).begin hashOf preOrderOffset fate =
      importBao preOrderOffset hashOf false hash size items := by
  unfold Command.begin importBao
  dsimp only
  rw [ImportProgress.reassemble_eq]
  cases ImportProgress.receiveAll preOrderOffset false size items with
  | none => rfl
  | some progress => rfl

/-- Without checks it is the task of the store's actor. -/
theorem Task.moveChecked_false (visit : Visit) (task : Task) :
    task.moveChecked hashOf preOrderOffset false visit =
      (task.move hashOf preOrderOffset visit.fate visit.now visit.store).2 := by
  cases task with
  | received command =>
      cases command with
      | importBao hash size items => exact (begin_importBao_eq visit.fate).symm
      | _ => rfl
  | storing job call => rfl
  | replied reply => rfl

theorem Task.replies_replied (reply : Reply) (visits : List Visit) :
    Task.replies hashOf preOrderOffset checks (.replied reply) visits = [] := by
  induction visits with
  | nil => rfl
  | cons visit rest ih => exact ih

/-- The turn in which a task comes to its end is the one in which it replies. -/
theorem Task.replies_of_end {task : Task} {visit : Visit} {rest : List Visit}
    {result : Except ImportBaoError Unit} (hopen : ∀ reply, task ≠ .replied reply)
    (hmove : task.moveChecked hashOf preOrderOffset checks visit =
      .replied (.importedBao result)) :
    Task.replies hashOf preOrderOffset checks task (visit :: rest) = [.importedBao result] := by
  unfold replies
  rw [hmove, replies_replied]
  cases task with
  | replied reply => exact absurd rfl (hopen reply)
  | _ => rfl

/-- A `put` of an import takes two steps, and however they end there is a reply. -/
theorem Task.replies_put (data : Bytes) {visits : List Visit} (hvisits : 2 ≤ visits.length) :
    ∃ result, Task.replies hashOf preOrderOffset checks (.storing .importBao (.put data)) visits =
      [.importedBao result] := by
  match visits, hvisits with
  | ⟨fate, now, store⟩ :: ⟨fate', now', store'⟩ :: rest, _ =>
      cases fate with
      | well =>
          have hinsert : ∃ result, Task.replies hashOf preOrderOffset checks
              (.storing .importBao (.next (.insertBlob data))) (⟨fate', now', store'⟩ :: rest) =
              [.importedBao result] := by
            cases fate' with
            | well => exact ⟨_, replies_of_end nofun rfl⟩
            | refused => exact ⟨_, replies_of_end nofun rfl⟩
            | lost => exact ⟨_, replies_of_end nofun rfl⟩
          exact hinsert
      | refused => exact ⟨_, replies_of_end nofun rfl⟩
      | lost => exact ⟨_, replies_of_end nofun rfl⟩

/-- An import that does not panic replies once. -/
theorem Task.replies_importBao {visits : List Visit} (hvisits : 3 ≤ visits.length)
    (hruns : size ≤ maxImportSize →
      ∃ progress, ImportProgress.receiveAll preOrderOffset checks size items = some progress) :
    ∃ result, Task.replies hashOf preOrderOffset checks (.received (.importBao hash size items))
      visits = [.importedBao result] := by
  match visits, hvisits with
  | first :: rest, hvisits =>
      have hrest : 2 ≤ rest.length := by
        rw [List.length_cons] at hvisits
        omega
      by_cases hsize : maxImportSize < size
      · have hbegin : importBao preOrderOffset hashOf checks hash size items =
            .replied (.importedBao (.error .tooLarge)) := if_pos hsize
        exact ⟨_, replies_of_end nofun hbegin⟩
      · obtain ⟨progress, hprogress⟩ := hruns (not_lt.mp hsize)
        by_cases hsame : hashOf progress.buffers.data = hash
        · have hbegin : importBao preOrderOffset hashOf checks hash size items =
              .storing .importBao (.put progress.buffers.data) := by
            unfold importBao
            rw [if_neg hsize, hprogress]
            exact if_pos hsame
          obtain ⟨result, hput⟩ := replies_put progress.buffers.data hrest
          refine ⟨result, ?_⟩
          unfold replies moveChecked
          dsimp only
          rw [hbegin]
          exact hput
        · have hbegin : importBao preOrderOffset hashOf checks hash size items =
              .replied (.importedBao (.error .hashMismatch)) := by
            unfold importBao
            rw [if_neg hsize, hprogress]
            exact if_neg hsame
          exact ⟨_, replies_of_end nofun hbegin⟩

/-- An import is safe if and only if it is refused for its size or all that it adds up fits
into 64 bits. -/
theorem import_safe_iff (hashOf : Bytes → Hash) (preOrderOffset : ℕ → ℕ → Option ℕ) (hash : Hash)
    (size : ℕ) (items : List BaoContentItem) :
    ImportSafe hashOf preOrderOffset hash size items ↔
      maxImportSize < size ∨ ItemsFit preOrderOffset size items := by
  constructor
  · intro hsafe
    by_cases hsize : maxImportSize < size
    · exact Or.inl hsize
    · obtain ⟨progress, hprogress, -⟩ := hsafe.received (not_lt.mp hsize) true
      exact Or.inr (ImportProgress.receiveAll_true_iff.mp hprogress).1
  · intro h
    have hruns : size ≤ maxImportSize → ItemsFit preOrderOffset size items := by
      intro hsize
      exact h.resolve_left hsize.not_gt
    constructor
    · intro hsize checks
      refine ⟨_, ImportProgress.receiveAll_of_fit (hruns hsize), ?_⟩
      rw [ImportProgress.foldl_accept]
      rfl
    · intro checks visits hvisits
      exact Task.replies_importBao hvisits
        (fun hsize => ⟨_, ImportProgress.receiveAll_of_fit (hruns hsize)⟩)

/-- A leaf at the end of the 64 bits.  The sum wraps to one, which is inside the data, and
neither build gets to a reply. -/
theorem import_not_safe :
    ¬ ImportSafe Hash.mk (fun _ _ => none) ⟨[0]⟩ 1 [.leaf (2 ^ 64 - 1) [0, 0]] ∧
      ∀ checks visits, Task.replies Hash.mk (fun _ _ => none) checks
        (.received (.importBao ⟨[0]⟩ 1 [.leaf (2 ^ 64 - 1) [0, 0]])) visits = [] := by
  have hpanics : ∀ checks, ImportProgress.receiveAll (fun _ _ => none) checks 1
      [.leaf (2 ^ 64 - 1) [0, 0]] = none := by
    intro checks
    cases checks with
    | false => rfl
    | true => rfl
  constructor
  · intro hsafe
    obtain ⟨progress, hprogress, -⟩ := hsafe.received (by decide) true
    rw [hpanics true] at hprogress
    cases hprogress
  · intro checks visits
    have hbegin : importBao (fun _ _ => none) Hash.mk checks ⟨[0]⟩ 1
        [.leaf (2 ^ 64 - 1) [0, 0]] = .replied .panicked := by
      unfold importBao
      rw [if_neg (by decide), hpanics checks]
    cases visits with
    | nil => rfl
    | cons visit rest =>
        unfold Task.replies Task.moveChecked
        dsimp only
        rw [hbegin]
        exact Task.replies_replied _ rest

end

end ObjectStore

end JaxFs

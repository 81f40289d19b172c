import JaxFs.ObjectStoreActor
import JaxFs.Pieces

/-!
# Exports of the object store

`export_ranges` sends the bytes of a blob that a set of ranges asks for, and `export_bao` all
of them, both in leaves of at most 1024 bytes.  An import of the leaves of a blob, in whatever
order they come, stores the blob.
-/

namespace JaxFs

namespace ObjectStore

/-! ## Ranges -/

/-- What `RangeSet2::iter` yields. -/
inductive RangeSetRange where
  | range (start stop : ℕ)
  | rangeFrom (start : ℕ)
  deriving DecidableEq

/-- A normalised set of ranges: it goes in and out at each of its boundaries in turn. -/
structure RangeSet where
  boundaries : List ℕ
  sorted : boundaries.Pairwise (· < ·)

def RangeSetRange.ofBoundaries : List ℕ → List RangeSetRange
  | [] => []
  | [start] => [.rangeFrom start]
  | start :: stop :: rest => .range start stop :: ofBoundaries rest

def RangeSet.iter (ranges : RangeSet) : List RangeSetRange :=
  RangeSetRange.ofBoundaries ranges.boundaries

def RangeSetRange.contains (place : ℕ) : RangeSetRange → Bool
  | .range start stop => decide (start ≤ place ∧ place < stop)
  | .rangeFrom start => decide (start ≤ place)

/-- The union of the ranges. -/
def RangeSet.contains (ranges : RangeSet) (place : ℕ) : Bool :=
  ranges.iter.any (RangeSetRange.contains place)

/-- Start and end of a range inside a blob. -/
def RangeSetRange.clip (size : ℕ) : RangeSetRange → ℕ × ℕ
  | .range start stop => (min start size, min stop size)
  | .rangeFrom start => (min start size, size)

/-! ## Exports -/

abbrev Leaf := Piece (Fin 256)

inductive ExportError where
  | notFound (text : String)
  | other (text : String)
  deriving DecidableEq

inductive ExportRangesItem where
  | size (size : ℕ)
  | data (leaf : Leaf)
  | error (error : ExportError)
  deriving DecidableEq

/-- The items that `export_bao` makes use of. -/
inductive EncodedItem where
  | leaf (leaf : Leaf)
  | error (error : ExportError)
  deriving DecidableEq

/-- `CHUNK_SIZE`. -/
abbrev chunkSize : ℕ := 1024

def RangeSetRange.leaves (data : Bytes) (range : RangeSetRange) : List Leaf :=
  let (start, stop) := range.clip data.length
  if stop ≤ start then [] else Piece.slices chunkSize data start stop

/-- The items for a receiver that stays; one that goes away has got the first of them.  Blobs
are shorter than `2 ^ 63` bytes, so no sum wraps. -/
def exportRanges (answer : Except String (Option Bytes)) (ranges : RangeSet) :
    List ExportRangesItem :=
  match answer with
  | .error text => [.error (.other text)]
  | .ok none => [.error (.notFound "hash not found")]
  | .ok (some data) =>
      .size data.length :: (ranges.iter.flatMap (RangeSetRange.leaves data)).map .data

/-- All the data, whatever ranges are asked for. -/
def exportBao (answer : Except String (Option Bytes)) (_ranges : RangeSet) : List EncodedItem :=
  match answer with
  | .error text => [.error (.other text)]
  | .ok none => [.error (.notFound "hash not found")]
  | .ok (some data) => (Piece.slices chunkSize data 0 data.length).map .leaf

/-- The item of an import that carries the leaf. -/
def BaoContentItem.ofLeaf (leaf : Leaf) : BaoContentItem := .leaf leaf.offset leaf.data

/-! ## What is sent -/

/-- The size of the blob, and its bytes in the union of the ranges, each once and in order. -/
def CoversRanges (data : Bytes) (ranges : RangeSet) (items : List ExportRangesItem) : Prop :=
  ∃ leaves : List Leaf, items = .size data.length :: leaves.map .data ∧
    (∀ leaf ∈ leaves, 1 ≤ leaf.data.length ∧ leaf.data.length ≤ 1024) ∧
    leaves.Pairwise (fun leaf leaf' => leaf.offset + leaf.data.length ≤ leaf'.offset) ∧
    leaves.flatMap Piece.entries = data.zipIdx.filter (fun entry => ranges.contains entry.2)

section

variable (hashOf : Bytes → Hash) (preOrderOffset : ℕ → ℕ → Option ℕ)

/-- Turns of one task in which no step fails and no other task takes one. -/
def Task.alone (nows : List ℤ) (state : BlobStore × Task) : BlobStore × Task :=
  nows.foldl (fun state now => state.2.move hashOf preOrderOffset .well now state.1) state

/-- Leaves that make up the blob.  An import of them, in whatever order they come, leaves the
blob in the store. -/
def Reimports (hash : Hash) (data : Bytes) (items : List EncodedItem) : Prop :=
  ∃ leaves : List Leaf, items = leaves.map .leaf ∧ leaves.flatMap Piece.data = data ∧
    ∀ received : List Leaf, received.Perm leaves → data.length ≤ maxImportSize →
      ∀ (store : BlobStore) (nows : List ℤ), 3 ≤ nows.length →
        let settled := Task.alone hashOf preOrderOffset nows
          (store, .received (.importBao hash data.length (received.map BaoContentItem.ofLeaf)))
        settled.1.get hash = some data ∧ settled.2 = .replied (.importedBao (.ok ()))

end

/-! ## Ranges of a blob -/

section

variable {size place : ℕ}

theorem RangeSetRange.clip_snd_le (range : RangeSetRange) : (range.clip size).2 ≤ size := by
  cases range with
  | range start stop => exact min_le_right _ _
  | rangeFrom start => exact le_rfl

theorem RangeSetRange.contains_iff {range : RangeSetRange} (h : place < size) :
    range.contains place = true ↔
      (range.clip size).1 ≤ place ∧ place < (range.clip size).2 := by
  cases range with
  | range start stop => simp [contains, clip, h, h.not_ge]
  | rangeFrom start => simp [contains, clip, h, h.not_ge]

/-- A range starts at one of the boundaries. -/
theorem RangeSetRange.le_clip_of_mem {boundaries : List ℕ} {bound : ℕ}
    (hbound : ∀ boundary ∈ boundaries, bound ≤ boundary) {range : RangeSetRange}
    (hrange : range ∈ ofBoundaries boundaries) : min bound size ≤ (range.clip size).1 := by
  induction boundaries using RangeSetRange.ofBoundaries.induct with
  | case1 => cases hrange
  | case2 start =>
      rw [ofBoundaries, List.mem_singleton] at hrange
      subst hrange
      exact min_le_min_right size (hbound start List.mem_cons_self)
  | case3 start stop rest ih =>
      rcases List.mem_cons.mp hrange with rfl | hrest
      · exact min_le_min_right size (hbound start List.mem_cons_self)
      · exact ih (fun boundary hboundary =>
          hbound boundary (List.mem_cons_of_mem _ (List.mem_cons_of_mem _ hboundary))) hrest

/-- Of two ranges the first ends before the second starts. -/
theorem RangeSetRange.pairwise_ofBoundaries {boundaries : List ℕ}
    (hsorted : boundaries.Pairwise (· < ·)) :
    (ofBoundaries boundaries).Pairwise
      (fun range range' => (range.clip size).2 ≤ (range'.clip size).1) := by
  induction boundaries using RangeSetRange.ofBoundaries.induct with
  | case1 => exact List.Pairwise.nil
  | case2 start => exact List.pairwise_singleton _ _
  | case3 start stop rest ih =>
      obtain ⟨-, hstop, hrest⟩ :=
        (List.pairwise_cons.mp hsorted).imp_right List.pairwise_cons.mp
      apply List.Pairwise.cons
      · intro range hrange
        exact le_clip_of_mem (fun boundary hboundary => (hstop boundary hboundary).le) hrange
      · exact ih hrest

end

/-! ## Leaves of a blob -/

section

variable {data : Bytes}

theorem RangeSetRange.leaves_eq (range : RangeSetRange) : range.leaves data =
    Piece.slices chunkSize data (range.clip data.length).1 (range.clip data.length).2 := by
  unfold leaves
  dsimp only
  split_ifs with hempty
  · exact (Piece.slices_of_le hempty).symm
  · rfl

theorem RangeSet.forall_leaves (ranges : RangeSet) :
    ∀ leaf ∈ ranges.iter.flatMap (RangeSetRange.leaves data),
      1 ≤ leaf.data.length ∧ leaf.data.length ≤ chunkSize := by
  intro leaf hleaf
  obtain ⟨range, -, hrange⟩ := List.mem_flatMap.mp hleaf
  rw [range.leaves_eq] at hrange
  obtain ⟨-, hone, hmost, -⟩ := Piece.forall_slices range.clip_snd_le leaf hrange
  exact ⟨hone, hmost⟩

theorem RangeSet.pairwise_leaves (ranges : RangeSet) :
    (ranges.iter.flatMap (RangeSetRange.leaves data)).Pairwise
      (fun leaf leaf' => leaf.stop ≤ leaf'.offset) := by
  rw [List.pairwise_flatMap]
  constructor
  · intro range _
    rw [range.leaves_eq]
    exact Piece.pairwise_slices range.clip_snd_le
  · refine (@RangeSetRange.pairwise_ofBoundaries data.length _ ranges.sorted).imp ?_
    intro range range' hle leaf hleaf leaf' hleaf'
    rw [range.leaves_eq] at hleaf
    rw [range'.leaves_eq] at hleaf'
    obtain ⟨-, -, -, -, hstop⟩ := Piece.forall_slices range.clip_snd_le leaf hleaf
    obtain ⟨-, -, -, hstart, -⟩ := Piece.forall_slices range'.clip_snd_le leaf' hleaf'
    exact hstop.trans (hle.trans hstart)

theorem RangeSet.mem_entries_iff (ranges : RangeSet) {entry : Fin 256 × ℕ} :
    entry ∈ (ranges.iter.flatMap (RangeSetRange.leaves data)).flatMap Piece.entries ↔
      entry ∈ data.zipIdx ∧ ranges.contains entry.2 = true := by
  rw [List.flatMap_assoc, List.mem_flatMap, RangeSet.contains, List.any_eq_true]
  have hrange : ∀ range : RangeSetRange, entry ∈ (range.leaves data).flatMap Piece.entries ↔
      entry ∈ data.zipIdx ∧ range.contains entry.2 = true := by
    intro range
    rw [range.leaves_eq, Piece.entries_slices range.clip_snd_le, Piece.mem_entries_slice]
    apply and_congr_right
    intro hentry
    have hlt := List.snd_lt_of_mem_zipIdx hentry
    exact (range.contains_iff (by omega)).symm
  constructor
  · rintro ⟨range, hmem, hentry⟩
    obtain ⟨hdata, hcontains⟩ := (hrange range).mp hentry
    exact ⟨hdata, range, hmem, hcontains⟩
  · rintro ⟨hdata, range, hmem, hcontains⟩
    exact ⟨range, hmem, (hrange range).mpr ⟨hdata, hcontains⟩⟩

/-- The bytes of the leaves are those of the blob in the union of the ranges. -/
theorem RangeSet.entries_leaves (ranges : RangeSet) :
    (ranges.iter.flatMap (RangeSetRange.leaves data)).flatMap Piece.entries =
      data.zipIdx.filter (fun entry => ranges.contains entry.2) := by
  apply Piece.eq_of_mem_entries_iff (Piece.pairwise_entries ranges.pairwise_leaves)
  · exact (Piece.pairwise_zipIdx data 0).filter _
  · intro entry
    rw [ranges.mem_entries_iff, List.mem_filter]

end

/-! ## Imports of leaves -/

section

variable {hashOf : Bytes → Hash} {preOrderOffset : ℕ → ℕ → Option ℕ} {data : Bytes}
  {leaves received : List Leaf}

theorem copyInto_of_fits {buffer : Bytes} {leaf : Leaf} (hfits : leaf.stop ≤ buffer.length)
    (hlength : buffer.length < 2 ^ 64) :
    copyInto buffer leaf.offset leaf.data = some (Piece.place buffer leaf) := by
  unfold Piece.stop at hfits
  unfold copyInto
  dsimp only
  rw [Nat.mod_eq_of_lt (hfits.trans_lt hlength), if_pos hfits, if_pos (Nat.le_add_right _ _)]
  rfl

/-- Leaves of a blob that have all of it give it back, whatever their order. -/
theorem reassemble_leaves (hperm : received.Perm leaves) (hof : ∀ leaf ∈ leaves, leaf.Of data)
    (hall : leaves.flatMap Piece.entries = data.zipIdx) (hlength : data.length < 2 ^ 64) :
    reassemble preOrderOffset data.length (received.map BaoContentItem.ofLeaf) = some data := by
  have hrun : ∃ buffers : BaoBuffers,
      received.foldlM (fun buffers leaf =>
        buffers.receive preOrderOffset data.length (BaoContentItem.ofLeaf leaf))
        (BaoBuffers.new data.length) = some buffers ∧
      Piece.Agrees data received buffers.data := by
    apply exists_foldlM_seen (R := fun _ _ => True)
      (motive := fun seen (buffers : BaoBuffers) => Piece.Agrees data seen buffers.data)
    · exact List.pairwise_of_forall (fun _ _ => trivial)
    · exact Piece.Agrees.nil (List.length_replicate ..)
    · intro seen leaf buffers hleaf _ hagrees
      have hleaf := hof leaf (hperm.mem_iff.mp hleaf)
      have hcopy := copyInto_of_fits (hagrees.length.symm ▸ hleaf.fits)
        (hagrees.length.symm ▸ hlength)
      refine ⟨{ buffers with data := Piece.place buffers.data leaf }, ?_, hagrees.place hleaf⟩
      unfold BaoBuffers.receive BaoContentItem.ofLeaf
      dsimp only
      rw [hcopy]
      rfl
  obtain ⟨buffers, hfold, hagrees⟩ := hrun
  unfold reassemble
  rw [List.foldlM_map, hfold]
  apply congrArg some
  apply hagrees.eq
  intro entry hentry
  rw [← hall] at hentry
  obtain ⟨leaf, hleaf, hentry⟩ := List.mem_flatMap.mp hentry
  exact List.mem_flatMap.mpr ⟨leaf, hperm.mem_iff.mpr hleaf, hentry⟩

theorem Task.alone_replied (nows : List ℤ) (store : BlobStore) (reply : Reply) :
    Task.alone hashOf preOrderOffset nows (store, .replied reply) = (store, .replied reply) := by
  induction nows with
  | nil => rfl
  | cons now rest ih => exact ih

/-- An import whose leaves are the blob has stored it after three turns. -/
theorem Task.alone_importBao {items : List BaoContentItem}
    (hreassemble : reassemble preOrderOffset data.length items = some data)
    (hsize : data.length ≤ maxImportSize) (store : BlobStore) {nows : List ℤ}
    (hturns : 3 ≤ nows.length) :
    let settled := Task.alone hashOf preOrderOffset nows
      (store, .received (.importBao (hashOf data) data.length items))
    settled.1.get (hashOf data) = some data ∧
      settled.2 = .replied (.importedBao (.ok ())) := by
  match nows, hturns with
  | first :: second :: third :: rest, _ =>
      have hbegin : (Command.importBao (hashOf data) data.length items).begin hashOf
          preOrderOffset .well = .storing .importBao (.put data) := by
        unfold Command.begin
        dsimp only
        rw [if_neg hsize.not_gt, hreassemble]
        exact if_pos rfl
      have hturns : Task.alone hashOf preOrderOffset (first :: second :: third :: rest)
          (store, .received (.importBao (hashOf data) data.length items)) =
          (((store.putData (hashOf data) data).insertBlob third (hashOf data) data.length
            (decide (outboardThreshold < data.length))),
            .replied (.importedBao (.ok ()))) := by
        rw [← Task.alone_replied rest]
        unfold Task.alone
        rw [List.foldl_cons]
        unfold Task.move
        dsimp only
        rw [hbegin]
        rfl
      rw [hturns]
      constructor
      · unfold BlobStore.get
        rw [BlobStore.hasBlob_insertBlob, if_pos rfl, if_pos rfl]
        exact (BlobStore.getData_putData _ _).trans (if_pos rfl)
      · rfl

end

/-! ## Exports of stored blobs -/

section

variable (hashOf : Bytes → Hash) (preOrderOffset : ℕ → ℕ → Option ℕ)

theorem coversRanges_exportRanges (data : Bytes) (ranges : RangeSet) :
    CoversRanges data ranges (exportRanges (.ok (some data)) ranges) :=
  ⟨_, rfl, ranges.forall_leaves, ranges.pairwise_leaves, ranges.entries_leaves⟩

theorem reimports_exportBao (data : Bytes) (ranges : RangeSet) :
    Reimports hashOf preOrderOffset (hashOf data) data (exportBao (.ok (some data)) ranges) := by
  have hentries : (Piece.slices chunkSize data 0 data.length).flatMap Piece.entries =
      data.zipIdx := by
    rw [Piece.entries_slices le_rfl, Piece.entries, Piece.slice, List.take_length, List.drop_zero]
  refine ⟨Piece.slices chunkSize data 0 data.length, rfl, ?_, ?_⟩
  · calc
      (Piece.slices chunkSize data 0 data.length).flatMap Piece.data
          = ((Piece.slices chunkSize data 0 data.length).flatMap Piece.entries).map Prod.fst := by
        rw [List.map_flatMap]
        exact List.flatMap_congr (fun piece _ => piece.entries_map_fst.symm)
      _ = data := by rw [hentries, List.zipIdx_map_fst]
  · intro received hperm hsize store nows hturns
    have hlength : data.length < 2 ^ 64 := by
      unfold maxImportSize at hsize
      omega
    have hof : ∀ leaf ∈ Piece.slices chunkSize data 0 data.length, leaf.Of data :=
      fun leaf hleaf => (Piece.forall_slices le_rfl leaf hleaf).1
    exact Task.alone_importBao (reassemble_leaves hperm hof hentries hlength) hsize store hturns

/-- Of every blob that the store holds, after whatever the actor has done, `export_ranges`
sends what the ranges ask for, and `export_bao` sends leaves from which an import restores
it. -/
theorem exports_cover {events : List Event} {hash : Hash} {data : Bytes}
    (hdata : ((Actor.new BlobStore.empty).run hashOf preOrderOffset events).running.shared.get
      hash = some data) (ranges : RangeSet) :
    let store := ((Actor.new BlobStore.empty).run hashOf preOrderOffset events).running.shared
    CoversRanges data ranges (exportRanges (.ok (store.get hash)) ranges) ∧
      Reimports hashOf preOrderOffset hash data (exportBao (.ok (store.get hash)) ranges) := by
  intro store
  have hstore : store.Addressed hashOf :=
    (Actor.addressed_run preOrderOffset Actor.addressed_new events).1
  have hhash : hashOf data = hash := hstore.hashOf_eq hdata
  rw [hdata]
  constructor
  · exact coversRanges_exportRanges data ranges
  · rw [← hhash]
    exact reimports_exportBao hashOf preOrderOffset data ranges

/-- A blob that was imported, and all of it but its first byte. -/
theorem exports_cover_three_bytes :
    let store := ((Actor.new BlobStore.empty).run Hash.mk (fun _ _ => none)
      [.command (.importBytes [1, 2, 3]), .turn ⟨0, .well, 0⟩, .turn ⟨0, .well, 1⟩,
        .turn ⟨0, .well, 2⟩]).running.shared
    let ranges : RangeSet := ⟨[1], List.pairwise_singleton _ _⟩
    store.get ⟨[1, 2, 3]⟩ = some [1, 2, 3] ∧
      CoversRanges [1, 2, 3] ranges (exportRanges (.ok (store.get ⟨[1, 2, 3]⟩)) ranges) ∧
      Reimports Hash.mk (fun _ _ => none) ⟨[1, 2, 3]⟩ [1, 2, 3]
        (exportBao (.ok (store.get ⟨[1, 2, 3]⟩)) ranges) :=
  ⟨rfl, exports_cover Hash.mk (fun _ _ => none) rfl _⟩

end

end ObjectStore

end JaxFs

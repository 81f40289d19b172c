import JaxFs.Folds

/-!
# Pieces

Pieces of a list that say where they belong.  A list is cut into slices that follow one
another, and slices that are written into a buffer give the list back in any order.
-/

namespace JaxFs

structure Piece (α : Type*) where
  offset : ℕ
  data : List α
  deriving DecidableEq

namespace Piece

variable {α : Type*}

def stop (piece : Piece α) : ℕ := piece.offset + piece.data.length

/-- The elements, each with its place in the whole. -/
def entries (piece : Piece α) : List (α × ℕ) := piece.data.zipIdx piece.offset

def slice (whole : List α) (start stop : ℕ) : Piece α :=
  ⟨start, (whole.take stop).drop start⟩

/-- The slices of at most `size` elements, one after the other. -/
def slices (size : ℕ) [NeZero size] (whole : List α) (start stop : ℕ) : List (Piece α) :=
  if start < stop then
    slice whole start (min (start + size) stop) ::
      slices size whole (min (start + size) stop) stop
  else []
termination_by stop - start
decreasing_by
  have hpos := NeZero.pos size
  omega

/-- The buffer with the piece written over it. -/
def place (buffer : List α) (piece : Piece α) : List α :=
  buffer.take piece.offset ++ piece.data ++ buffer.drop piece.stop

/-- The piece holds what the whole has at its place. -/
structure Of (whole : List α) (piece : Piece α) : Prop where
  fits : piece.stop ≤ whole.length
  same : ∀ place, piece.offset ≤ place → place < piece.stop →
    piece.data[place - piece.offset]? = whole[place]?

/-- The buffer has what the whole has wherever one of the pieces is. -/
structure Agrees (whole : List α) (pieces : List (Piece α)) (buffer : List α) : Prop where
  length : buffer.length = whole.length
  same : ∀ piece ∈ pieces, ∀ place, piece.offset ≤ place → place < piece.stop →
    buffer[place]? = whole[place]?

/-! ## Slices -/

section

variable {whole : List α} {start stop : ℕ}

theorem slice_length (hfits : stop ≤ whole.length) :
    (slice whole start stop).data.length = stop - start := by
  simp [slice, hfits]

theorem slice_stop (hle : start ≤ stop) (hfits : stop ≤ whole.length) :
    (slice whole start stop).stop = stop := by
  rw [Piece.stop, slice_length hfits]
  exact Nat.add_sub_cancel' hle

theorem slice_of (hle : start ≤ stop) (hfits : stop ≤ whole.length) :
    (slice whole start stop).Of whole := by
  constructor
  · rw [slice_stop hle hfits]
    exact hfits
  · intro place hstart hstop
    rw [slice_stop hle hfits] at hstop
    change start ≤ place at hstart
    change ((whole.take stop).drop start)[place - start]? = whole[place]?
    rw [List.getElem?_drop, Nat.add_sub_cancel' hstart, List.getElem?_take_of_lt hstop]

/-- A slice has the elements of the whole from its start up to its end. -/
theorem mem_entries_slice {entry : α × ℕ} :
    entry ∈ (slice whole start stop).entries ↔
      entry ∈ whole.zipIdx ∧ start ≤ entry.2 ∧ entry.2 < stop := by
  rw [entries, List.mem_zipIdx_iff_le_and_getElem?_sub, List.mem_zipIdx_iff_getElem?]
  change start ≤ entry.2 ∧ ((whole.take stop).drop start)[entry.2 - start]? = some entry.1 ↔ _
  constructor
  · rintro ⟨hstart, hentry⟩
    rw [List.getElem?_drop, Nat.add_sub_cancel' hstart, List.getElem?_take] at hentry
    split_ifs at hentry with hstop
    exact ⟨hentry, hstart, hstop⟩
  · rintro ⟨hentry, hstart, hstop⟩
    refine ⟨hstart, ?_⟩
    rw [List.getElem?_drop, Nat.add_sub_cancel' hstart, List.getElem?_take_of_lt hstop]
    exact hentry

theorem entries_append {middle : ℕ} (hstart : start ≤ middle) (hstop : middle ≤ stop)
    (hfits : stop ≤ whole.length) :
    (slice whole start middle).entries ++ (slice whole middle stop).entries =
      (slice whole start stop).entries := by
  have hcut : (whole.take middle).drop start ++ (whole.take stop).drop middle =
      (whole.take stop).drop start := by
    have htake : (whole.take stop).take middle = whole.take middle := by
      rw [List.take_take, min_eq_left hstop]
    rw [← htake, List.drop_take]
    have hdrop : (whole.take stop).drop middle =
        ((whole.take stop).drop start).drop (middle - start) := by
      rw [List.drop_drop, Nat.add_sub_cancel' hstart]
    rw [hdrop, List.take_append_drop]
  have hlength : (slice whole start middle).data.length = middle - start :=
    slice_length (hstop.trans hfits)
  unfold entries
  change _ ++ ((whole.take stop).drop middle).zipIdx middle =
    ((whole.take stop).drop start).zipIdx start
  rw [← hcut, List.zipIdx_append]
  congr 2
  change middle = start + (slice whole start middle).data.length
  rw [hlength, Nat.add_sub_cancel' hstart]

theorem slices_of_lt {size : ℕ} [NeZero size] (h : start < stop) :
    slices size whole start stop =
      slice whole start (min (start + size) stop) ::
        slices size whole (min (start + size) stop) stop := by
  rw [slices, if_pos h]

theorem slices_of_le {size : ℕ} [NeZero size] (h : stop ≤ start) :
    slices size whole start stop = [] := by
  rw [slices, if_neg h.not_gt]

/-- Each of the slices has an element, and not more than they may have. -/
theorem forall_slices {size : ℕ} [NeZero size] (hfits : stop ≤ whole.length) :
    ∀ piece ∈ slices size whole start stop, piece.Of whole ∧
      1 ≤ piece.data.length ∧ piece.data.length ≤ size ∧
      start ≤ piece.offset ∧ piece.stop ≤ stop := by
  induction start using slices.induct size stop with
  | case1 start hlt ih =>
      rw [slices_of_lt hlt]
      have hsize := NeZero.pos size
      have hfirst : min (start + size) stop ≤ whole.length := (min_le_right _ _).trans hfits
      have hle : start ≤ min (start + size) stop := by omega
      intro piece hpiece
      rcases List.mem_cons.mp hpiece with rfl | hrest
      · rw [slice_stop hle hfirst, slice_length hfirst]
        refine ⟨slice_of hle hfirst, ?_, ?_, le_rfl, min_le_right _ _⟩
        · omega
        · omega
      · obtain ⟨hof, hone, hmost, hstart, hstop⟩ := ih piece hrest
        exact ⟨hof, hone, hmost, hle.trans hstart, hstop⟩
  | case2 start hge =>
      rw [slices_of_le (not_lt.mp hge)]
      intro piece hpiece
      cases hpiece

theorem pairwise_slices {size : ℕ} [NeZero size] (hfits : stop ≤ whole.length) :
    (slices size whole start stop).Pairwise (fun piece piece' => piece.stop ≤ piece'.offset) := by
  induction start using slices.induct size stop with
  | case1 start hlt ih =>
      rw [slices_of_lt hlt]
      have hfirst : min (start + size) stop ≤ whole.length := (min_le_right _ _).trans hfits
      have hle : start ≤ min (start + size) stop := by omega
      apply List.Pairwise.cons
      · intro piece hpiece
        rw [slice_stop hle hfirst]
        exact (forall_slices hfits piece hpiece).2.2.2.1
      · exact ih
  | case2 start hge =>
      rw [slices_of_le (not_lt.mp hge)]
      exact List.Pairwise.nil

/-- The slices have what the whole has, each element once. -/
theorem entries_slices {size : ℕ} [NeZero size] (hfits : stop ≤ whole.length) :
    (slices size whole start stop).flatMap entries = (slice whole start stop).entries := by
  induction start using slices.induct size stop with
  | case1 start hlt ih =>
      rw [slices_of_lt hlt, List.flatMap_cons, ih]
      exact entries_append (by omega) (min_le_right _ _) hfits
  | case2 start hge =>
      rw [slices_of_le (not_lt.mp hge), entries, slice, List.drop_of_length_le]
      · rfl
      · rw [List.length_take]
        omega

theorem pairwise_zipIdx (whole : List α) (start : ℕ) :
    (whole.zipIdx start).Pairwise (fun entry entry' => entry.2 < entry'.2) := by
  have hplaces : ((whole.zipIdx start).map Prod.snd).Pairwise (· < ·) := by
    rw [List.zipIdx_map_snd]
    exact List.pairwise_lt_range'
  exact List.pairwise_map.mp hplaces

/-- Pieces that follow one another have their elements in order. -/
theorem pairwise_entries {pieces : List (Piece α)}
    (h : pieces.Pairwise (fun piece piece' => piece.stop ≤ piece'.offset)) :
    (pieces.flatMap entries).Pairwise (fun entry entry' => entry.2 < entry'.2) := by
  rw [List.pairwise_flatMap]
  constructor
  · intro piece _
    exact pairwise_zipIdx piece.data piece.offset
  · refine h.imp ?_
    intro piece piece' hle entry hentry entry' hentry'
    have hstop := List.snd_lt_of_mem_zipIdx hentry
    have hstart := List.le_snd_of_mem_zipIdx hentry'
    unfold stop at hle
    omega

theorem eq_of_mem_entries_iff {entries entries' : List (α × ℕ)}
    (h : entries.Pairwise (fun entry entry' => entry.2 < entry'.2))
    (h' : entries'.Pairwise (fun entry entry' => entry.2 < entry'.2))
    (hmem : ∀ entry, entry ∈ entries ↔ entry ∈ entries') : entries = entries' := by
  have hantisymm : Std.Antisymm (fun entry entry' : α × ℕ => entry.2 < entry'.2) :=
    ⟨fun _ _ hlt hlt' => absurd hlt hlt'.not_gt⟩
  have hirrefl : Std.Irrefl (fun entry entry' : α × ℕ => entry.2 < entry'.2) :=
    ⟨fun _ => lt_irrefl _⟩
  exact h.eq_of_mem_iff h' hmem

theorem entries_map_fst (piece : Piece α) : piece.entries.map Prod.fst = piece.data :=
  List.zipIdx_map_fst _ _

end

/-! ## Placing -/

section

variable {whole buffer : List α} {pieces : List (Piece α)} {piece : Piece α}

theorem length_place (hfits : piece.stop ≤ buffer.length) :
    (place buffer piece).length = buffer.length := by
  unfold stop at hfits
  simp only [place, stop, List.length_append, List.length_take, List.length_drop]
  omega

theorem getElem?_place (hfits : piece.stop ≤ buffer.length) (place' : ℕ) :
    (place buffer piece)[place']? =
      if piece.offset ≤ place' ∧ place' < piece.stop then piece.data[place' - piece.offset]?
      else buffer[place']? := by
  have hoffset : piece.offset ≤ buffer.length := (Nat.le_add_right _ _).trans hfits
  unfold place
  have hlength : (buffer.take piece.offset).length = piece.offset := by
    rw [List.length_take, min_eq_left hoffset]
  rw [List.append_assoc]
  by_cases hbefore : place' < piece.offset
  · rw [if_neg (fun h => absurd hbefore h.1.not_gt),
      List.getElem?_append_left (hlength.symm ▸ hbefore), List.getElem?_take_of_lt hbefore]
  · rw [List.getElem?_append_right (by omega), hlength]
    by_cases hinside : place' < piece.stop
    · rw [if_pos ⟨not_lt.mp hbefore, hinside⟩, List.getElem?_append_left]
      unfold stop at hinside
      omega
    · rw [if_neg (fun h => hinside h.2), List.getElem?_append_right, List.getElem?_drop]
      · congr 1
        unfold stop at hinside ⊢
        omega
      · unfold stop at hinside
        omega

theorem Agrees.nil (hlength : buffer.length = whole.length) : Agrees whole [] buffer :=
  ⟨hlength, fun _ hpiece => nomatch hpiece⟩

/-- A piece of the whole is written over a buffer, and the buffer agrees at its place too. -/
theorem Agrees.place (h : Agrees whole pieces buffer) (hof : piece.Of whole) :
    Agrees whole (pieces ++ [piece]) (place buffer piece) := by
  have hfits : piece.stop ≤ buffer.length := h.length.symm ▸ hof.fits
  constructor
  · rw [length_place hfits, h.length]
  · intro other hother place' hstart hstop
    rw [getElem?_place hfits]
    split_ifs with hinside
    · exact hof.same place' hinside.1 hinside.2
    · rcases List.mem_append.mp hother with hold | hnew
      · exact h.same other hold place' hstart hstop
      · rw [List.mem_singleton.mp hnew] at hstart hstop
        exact absurd ⟨hstart, hstop⟩ hinside

/-- Pieces that have every element leave nothing of the buffer. -/
theorem Agrees.eq (h : Agrees whole pieces buffer)
    (hall : ∀ entry ∈ whole.zipIdx, entry ∈ pieces.flatMap entries) : buffer = whole := by
  apply List.ext_getElem?
  intro place'
  by_cases hplace : place' < whole.length
  · obtain ⟨piece, hpiece, hentry⟩ := List.mem_flatMap.mp
      (hall (whole[place'], place') (List.mk_mem_zipIdx_iff_getElem?.mpr
        (List.getElem?_eq_getElem hplace)))
    have hstop := List.snd_lt_of_mem_zipIdx hentry
    rw [Nat.add_comm] at hstop
    exact h.same piece hpiece place' (List.le_snd_of_mem_zipIdx hentry) hstop
  · rw [List.getElem?_eq_none (not_lt.mp hplace),
      List.getElem?_eq_none (h.length.symm ▸ not_lt.mp hplace)]

end

end Piece

end JaxFs

import Mathlib.Data.List.Basic
import Mathlib.Tactic

/-!
# Chunks of one size

A list cut into chunks of one size, and lists of that size put one after the
other.  Where the size divides the length the two undo each other.  `chunksExact`
drops what is left at the end.
-/

namespace Chunks

variable {α : Type*} {size : ℕ}

/-- The first `count` chunks. -/
def chunks (size : ℕ) : ℕ → List α → List (List α)
  | 0, _ => []
  | count + 1, l => l.take size :: chunks size count (l.drop size)

/-- All full chunks. -/
def chunksExact (size : ℕ) (l : List α) : List (List α) :=
  chunks size (l.length / size) l

/-- Every member has the size. -/
def Uniform (size : ℕ) (cs : List (List α)) : Prop := ∀ c ∈ cs, c.length = size

theorem uniform_cons {c : List α} {cs : List (List α)} :
    Uniform size (c :: cs) ↔ c.length = size ∧ Uniform size cs :=
  List.forall_mem_cons

theorem flatten_chunks (count : ℕ) (l : List α) :
    (chunks size count l).flatten = l.take (count * size) := by
  induction count generalizing l with
  | zero => simp [chunks]
  | succ count ih =>
      have hcount : (count + 1) * size = size + count * size := by
        rw [Nat.succ_mul, Nat.add_comm]
      rw [chunks, List.flatten_cons, ih, hcount, List.take_add]

theorem uniform_chunks {count : ℕ} {l : List α} (h : count * size ≤ l.length) :
    Uniform size (chunks size count l) := by
  induction count generalizing l with
  | zero => simp [chunks, Uniform]
  | succ count ih =>
      rw [Nat.succ_mul] at h
      have hfirst : (l.take size).length = size := List.length_take_of_le (by omega)
      have hrest : count * size ≤ (l.drop size).length := by
        rw [List.length_drop]
        omega
      exact uniform_cons.mpr ⟨hfirst, ih hrest⟩

theorem length_flatten {cs : List (List α)} (h : Uniform size cs) :
    cs.flatten.length = cs.length * size := by
  induction cs with
  | nil => simp
  | cons c cs ih =>
      obtain ⟨hc, hcs⟩ := uniform_cons.mp h
      rw [List.flatten_cons, List.length_append, hc, ih hcs, List.length_cons,
        Nat.succ_mul, Nat.add_comm]

theorem chunks_flatten {cs : List (List α)} (h : Uniform size cs) :
    chunks size cs.length cs.flatten = cs := by
  induction cs with
  | nil => rfl
  | cons c cs ih =>
      obtain ⟨hc, hcs⟩ := uniform_cons.mp h
      rw [List.length_cons, chunks, List.flatten_cons, List.take_left' hc,
        List.drop_left' hc, ih hcs]

/-! ## All chunks -/

theorem uniform_chunksExact (size : ℕ) (l : List α) :
    Uniform size (chunksExact size l) :=
  uniform_chunks (Nat.div_mul_le_self l.length size)

theorem flatten_chunksExact {l : List α} (h : l.length % size = 0) :
    (chunksExact size l).flatten = l := by
  have hlength : l.length / size * size = l.length :=
    Nat.div_mul_cancel (Nat.dvd_of_mod_eq_zero h)
  rw [chunksExact, flatten_chunks, hlength, List.take_length]

theorem chunksExact_flatten (hsize : 0 < size) {cs : List (List α)}
    (h : Uniform size cs) : chunksExact size cs.flatten = cs := by
  have hcount : cs.flatten.length / size = cs.length := by
    rw [length_flatten h, Nat.mul_div_cancel _ hsize]
  rw [chunksExact, hcount, chunks_flatten h]

end Chunks

import Mathlib.Data.List.GetD
import Mathlib.Tactic

/-!
# Files as POSIX has them

A file is an array of bytes that reads as zero beyond its end.  A write changes the bytes
it covers and extends the file as far as it reaches; a truncation cuts or extends it.
Two files are compared byte by byte and by their lengths: a byte that no operation
touches is what it was, and every other byte does not depend on the file at all.
-/

namespace PosixFile

variable {α : Type}

inductive FileOp (α : Type) where
  | write (offset : ℕ) (data : List α)
  | truncate (size : ℕ)

namespace FileOp

def isTruncate : FileOp α → Bool
  | write _ _ => false
  | truncate _ => true

/-- The length of the file afterwards.  A write of nothing does not extend it. -/
def length (n : ℕ) : FileOp α → ℕ
  | write offset data => if data = [] then n else max n (offset + data.length)
  | truncate size => size

/-- The byte that the operation leaves at a position, when it touches it. -/
def value? [Zero α] (i : ℕ) : FileOp α → Option α
  | write offset data => if offset ≤ i then data[i - offset]? else none
  | truncate size => if size ≤ i then some 0 else none

def apply [Zero α] (file : List α) (op : FileOp α) : List α :=
  (List.range (op.length file.length)).map (fun i => (op.value? i).getD (file.getD i 0))

end FileOp

/-- The length of a file after the operations. -/
def lengthAfter (ops : List (FileOp α)) (n : ℕ) : ℕ := ops.foldl FileOp.length n

variable [Zero α]

def run (ops : List (FileOp α)) (file : List α) : List α := ops.foldl FileOp.apply file

/-- The byte that the operations leave at a position, when one of them touches it. -/
def valueAfter (ops : List (FileOp α)) (i : ℕ) : Option α :=
  ops.foldl (fun value op => (op.value? i).or value) none

def Untouched (ops : List (FileOp α)) (i : ℕ) : Prop := ∀ op ∈ ops, op.value? i = none

/-- Files with the same length and the same bytes are equal. -/
theorem ext_getD {file file' : List α} (hlength : file.length = file'.length)
    (hbytes : ∀ i, file.getD i 0 = file'.getD i 0) : file = file' := by
  apply List.ext_getElem hlength
  intro i hi hi'
  simpa [hi, hi'] using hbytes i

@[simp] theorem FileOp.length_apply (file : List α) (op : FileOp α) :
    (op.apply file).length = op.length file.length := by
  simp [apply]

/-- Nothing is left beyond the end. -/
theorem FileOp.value?_of_length_le {file : List α} {op : FileOp α} {i : ℕ}
    (h : op.length file.length ≤ i) : (op.value? i).getD (file.getD i 0) = 0 := by
  cases op with
  | truncate size => simp_all [length, value?]
  | write offset data =>
      simp only [length] at h
      split_ifs at h with hdata
      · simp [value?, hdata, h]
      · have hfile : file.length ≤ i := by omega
        have hend : data.length ≤ i - offset := by omega
        simp [value?, hfile, hend]

theorem FileOp.getD_apply (file : List α) (op : FileOp α) (i : ℕ) :
    (op.apply file).getD i 0 = (op.value? i).getD (file.getD i 0) := by
  by_cases h : i < op.length file.length
  · simp [apply, h]
  · have hbeyond := FileOp.value?_of_length_le (Nat.le_of_not_lt h)
    rw [hbeyond]
    simp [apply, h]

section

variable (ops : List (FileOp α)) (file : List α)

@[simp] theorem run_nil : run [] file = file := rfl

@[simp] theorem run_cons (op : FileOp α) : run (op :: ops) file = run ops (op.apply file) := rfl

theorem length_run : (run ops file).length = lengthAfter ops file.length := by
  induction ops generalizing file with
  | nil => rfl
  | cons op ops ih =>
      rw [run_cons, ih, FileOp.length_apply]
      rfl

theorem foldl_value? (i : ℕ) (value : Option α) :
    ops.foldl (fun value op => (op.value? i).or value) value = (valueAfter ops i).or value := by
  unfold valueAfter
  induction ops generalizing value with
  | nil => rfl
  | cons op ops ih =>
      rw [List.foldl_cons, ih, List.foldl_cons, ih ((op.value? i).or none), Option.or_none,
        Option.or_assoc]

theorem valueAfter_cons (op : FileOp α) (i : ℕ) :
    valueAfter (op :: ops) i = (valueAfter ops i).or (op.value? i) := by
  rw [valueAfter, List.foldl_cons, foldl_value?, Option.or_none]

theorem getD_run (i : ℕ) :
    (run ops file).getD i 0 = (valueAfter ops i).getD (file.getD i 0) := by
  induction ops generalizing file with
  | nil => rfl
  | cons op ops ih =>
      rw [run_cons, ih, FileOp.getD_apply, valueAfter_cons]
      cases valueAfter ops i <;> simp

theorem valueAfter_eq_none_iff (i : ℕ) : valueAfter ops i = none ↔ Untouched ops i := by
  unfold Untouched
  induction ops with
  | nil => simp [valueAfter]
  | cons op ops ih => simp [valueAfter_cons, ih, and_comm]

/-- A list that has the bytes of the operations on an empty file is the result of running
them on another one exactly when it has the right length and every byte that is left
alone is zero. -/
theorem run_eq_iff {other : List α}
    (hother : ∀ i, other.getD i 0 = (valueAfter ops i).getD 0) :
    other = run ops file ↔
      other.length = lengthAfter ops file.length ∧
        ∀ i, Untouched ops i → file.getD i 0 = 0 := by
  constructor
  · rintro heq
    refine ⟨by rw [heq, length_run], ?_⟩
    intro i huntouched
    have hbyte := hother i
    rw [heq, getD_run, (valueAfter_eq_none_iff ops i).mpr huntouched] at hbyte
    simpa using hbyte
  · rintro ⟨hlength, hzero⟩
    apply ext_getD (hlength.trans (length_run ops file).symm)
    intro i
    rw [hother, getD_run]
    cases hvalue : valueAfter ops i with
    | some byte => rfl
    | none => exact (hzero i ((valueAfter_eq_none_iff ops i).mp hvalue)).symm

end

end PosixFile

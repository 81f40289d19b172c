import JaxFs.FuseCache
import JaxFs.FuseWrite

/-!
# Reads through a handle with a write buffer

`read` answers from the buffer of the handle as long as the offset lies inside it.  From
its end on the request falls through to the version that the cache or the mount holds, so
the reply is that of the buffer only if the older version has nothing there either.
-/

namespace JaxFs

/-- The bytes of a file from one offset up to another, as far as the file goes. -/
def bytesBetween (data : Bytes) (start stop : ℕ) : Bytes :=
  (data.take (min stop data.length)).drop start

namespace Fuse

theorem slice_eq_bytesBetween (data : Bytes) (offset size : ℕ) :
    slice data offset size = bytesBetween data offset (offset + size) := by
  have hlength : min size (data.length - offset) =
      min (min (offset + size) data.length - offset) (data.length - offset) := by omega
  simp [slice, bytesBetween, List.drop_take, List.take_eq_take_iff, hlength]

theorem slice_eq_nil_iff (data : Bytes) (offset size : ℕ) :
    slice data offset size = [] ↔ data.length ≤ offset ∨ size = 0 := by
  simp [slice, or_comm]

section

variable [P : Primitives] {fs fs' : FuseFs} {ino fh offset size : ℕ}

/-- The bytes that `fetch_content` has for a path: the cached ones, else the stored ones. -/
def FuseFs.contentAt (fs : FuseFs) (path : Name) : Option Bytes :=
  match fs.cache.getContent path with
  | some content => some content.data
  | none => (fs.mount.cat (Path.parse path)).toOption

theorem fetchContent_iff_contentAt {path : Name} {data : Bytes} :
    (∃ content fs', (fetchContent path).run fs = .ok (some content) fs' ∧
        content.data = data) ↔
      fs.contentAt path = some data := by
  unfold fetchContent FuseFs.contentAt
  rw [run_getThe_bind]
  cases fs.cache.getContent path with
  | some content => simp
  | none =>
      cases hcat : fs.mount.cat (Path.parse path) with
      | ok stored =>
          have hread : (readMount (fun mount => mount.cat (Path.parse path))).run fs =
              .ok (.ok stored) fs := run_readMount_of_ok hcat
          simp [-bind_pure_comp, EStateM.run_bind_of_ok hread, Except.toOption]
      | error fault =>
          have hread := run_readMount (fun mount => mount.cat (Path.parse path)) fs
          rw [hcat] at hread
          cases fault with
          | error error => simp [EStateM.run_bind_of_ok hread, Except.toOption]
          | panic => simp [EStateM.run_bind_of_error hread, Except.toOption]
          | outOfFuel => simp [EStateM.run_bind_of_error hread, Except.toOption]

/-- Inside its buffer a handle reads the buffer. -/
theorem read_of_inside {buffer : WriteBuffer} (hbuffer : fs.writeBuffers.get? fh = some buffer)
    (hinside : offset < buffer.data.length) :
    (read ino fh offset size).run fs = .ok (slice buffer.data offset size) fs := by
  unfold read
  rw [run_getThe_bind]
  simp [hbuffer, Option.filter, hinside]

/-- Elsewhere the reply comes from the cache or the mount. -/
theorem read_of_outside {data : Bytes}
    (houtside : ∀ buffer, fs.writeBuffers.get? fh = some buffer →
      buffer.data.length ≤ offset) :
    (∃ fs', (read ino fh offset size).run fs = .ok data fs') ↔
      ∃ path stored, fs.inodes.getPath ino = some path ∧
        fs.contentAt path = some stored ∧ data = slice stored offset size := by
  have hnone : (fs.writeBuffers.get? fh).filter
      (fun buffer => decide (offset < buffer.data.length)) = none := by
    rw [Option.filter_eq_none_iff]
    intro buffer hbuffer
    simp [houtside buffer hbuffer]
  unfold read
  rw [run_getThe_bind]
  simp only [hnone, run_inodePath_bind_eq_ok_iff, ← fetchContent_iff_contentAt]
  constructor
  · intro ⟨fs', path, hpath, hrun⟩
    obtain ⟨content, middle, hfetch, hreply⟩ := EStateM.run_bind_eq_ok_iff.mp hrun
    cases content with
    | none => simp at hreply
    | some content =>
        simp at hreply
        exact ⟨path, content.data, hpath, ⟨content, middle, hfetch, rfl⟩, hreply.1.symm⟩
  · intro ⟨path, stored, hpath, ⟨content, middle, hfetch, hdata⟩, hreply⟩
    refine ⟨middle, path, hpath, ?_⟩
    rw [EStateM.run_bind_of_ok hfetch]
    simp [hdata, hreply]

/-- A handle with a buffer reads exactly its buffer when the offset lies inside it or the
version of the cache or the mount has no bytes to show there. -/
theorem read_buffered_iff {buffer : WriteBuffer}
    (hbuffer : fs.writeBuffers.get? fh = some buffer) :
    (∃ fs', (read ino fh offset size).run fs =
        .ok (bytesBetween buffer.data offset (offset + size)) fs') ↔
      offset < buffer.data.length ∨
        ∃ path stored, fs.inodes.getPath ino = some path ∧
          fs.contentAt path = some stored ∧ (stored.length ≤ offset ∨ size = 0) := by
  rw [← slice_eq_bytesBetween]
  by_cases hinside : offset < buffer.data.length
  · simp [read_of_inside hbuffer hinside, hinside]
  · have hend : buffer.data.length ≤ offset := Nat.le_of_not_lt hinside
    have hempty : slice buffer.data offset size = [] :=
      (slice_eq_nil_iff _ _ _).mpr (Or.inl hend)
    rw [read_of_outside (by simp [hbuffer, hend]), hempty]
    simp only [hinside, false_or, eq_comm (a := ([] : Bytes)), slice_eq_nil_iff]

end

end Fuse

namespace Reference

open Fuse

/-- `/f` of three bytes, truncated to one byte through the handle that wrote it. -/
def truncatedFs : FuseFs :=
  ((discard (Fuse.setattr 0 2 (some 1) none (some 1)) : FuseM Unit).run storedFs).state

/-- Past the single byte that is left, the handle still reads the bytes cut off. -/
theorem truncated_bytes_read :
    (truncatedFs.writeBuffers.get? 1).map WriteBuffer.data = some [1] ∧
      ∃ fs, (Fuse.read 2 1 1 2).run truncatedFs = .ok [2, 3] fs ∧
        bytesBetween [1] 1 3 = [] := by
  have htest : (truncatedFs.writeBuffers.get? 1).map WriteBuffer.data = some [1] ∧
      ((Fuse.read 2 1 1 2).run truncatedFs).okWith
        (fun data _ => decide (data = [2, 3])) = true := by
    decide +kernel
  obtain ⟨data, fs, hread, hdata⟩ := EStateM.Result.exists_of_okWith htest.2
  simp only [decide_eq_true_eq] at hdata
  subst hdata
  exact ⟨htest.1, fs, hread, rfl⟩

/-- The byte that is left reads as the buffer has it. -/
theorem kept_byte_read :
    (∃ buffer, truncatedFs.writeBuffers.get? 1 = some buffer ∧
      ((∃ fs, (Fuse.read 2 1 0 3).run truncatedFs =
          .ok (bytesBetween buffer.data 0 (0 + 3)) fs) ↔
        0 < buffer.data.length ∨
          ∃ path stored, truncatedFs.inodes.getPath 2 = some path ∧
            truncatedFs.contentAt path = some stored ∧ (stored.length ≤ 0 ∨ 3 = 0))) := by
  have hbuffer : (truncatedFs.writeBuffers.get? 1).isSome = true := by decide +kernel
  obtain ⟨buffer, hbuffer⟩ := Option.isSome_iff_exists.mp hbuffer
  exact ⟨buffer, hbuffer, read_buffered_iff hbuffer⟩

end Reference

end JaxFs

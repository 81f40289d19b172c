import JaxFs.FuseRename
import JaxFs.PosixFile
import JaxFs.TreeRefinement

/-!
# Writes through a handle

The first write through an opened handle starts a buffer from nothing, and the flush
replaces the file by the buffer.  Truncations before the first write go to the file
itself.  `Handle.Overlays` says for which files and operations the result is what POSIX
makes of the file all the same.
-/

namespace JaxFs

open PosixFile

/-! ## Buffers -/

namespace Fuse

theorem length_resize (data : Bytes) (size : ℕ) : (resize data size).length = size := by
  simp [resize]
  omega

theorem getD_resize (data : Bytes) (size i : ℕ) :
    (resize data size).getD i 0 = if size ≤ i then 0 else data.getD i 0 := by
  unfold resize
  split_ifs with hsize
  · have hlength := length_resize data size
    unfold resize at hlength
    rw [List.getD_eq_default _ _ (by omega)]
  · by_cases hdata : i < data.length
    · rw [List.getD_append _ _ _ _ (by simp; omega)]
      simp [Nat.lt_of_not_le hsize]
    · have hlong : data.take size = data := List.take_of_length_le (by omega)
      rw [hlong, List.getD_append_right _ _ _ _ (by omega)]
      simp [Nat.le_of_not_lt hdata]

theorem length_writeAt (buffer : Bytes) (offset : ℕ) (data : Bytes) :
    (writeAt buffer offset data).length = max buffer.length (offset + data.length) := by
  unfold writeAt
  dsimp only
  split_ifs with hshort
  · simp [length_resize]
    omega
  · simp
    omega

/-- Three pieces laid end to end, of which the first and the last are of one list. -/
theorem getD_overlay {extended data : Bytes} {offset : ℕ}
    (hlength : offset + data.length ≤ extended.length) (i : ℕ) :
    (extended.take offset ++ data ++ extended.drop (offset + data.length)).getD i 0 =
      ((FileOp.write offset data).value? i).getD (extended.getD i 0) := by
  have htake : (extended.take offset).length = offset := by
    simp
    omega
  simp only [FileOp.value?]
  rw [List.append_assoc]
  split_ifs with hi
  · rw [List.getD_append_right _ _ _ _ (by omega), htake]
    by_cases hdata : i - offset < data.length
    · rw [List.getD_append _ _ _ _ hdata]
      simp [hdata]
    · rw [List.getD_append_right _ _ _ _ (by omega)]
      have hposition : offset + data.length + (i - offset - data.length) = i := by omega
      simp [Nat.le_of_not_lt hdata, hposition]
  · rw [List.getD_append _ _ _ _ (by omega)]
    simp [Nat.lt_of_not_le hi]

theorem getD_writeAt (buffer : Bytes) (offset : ℕ) (data : Bytes) (i : ℕ) :
    (writeAt buffer offset data).getD i 0 =
      ((FileOp.write offset data).value? i).getD (buffer.getD i 0) := by
  unfold writeAt
  dsimp only
  split_ifs with hshort
  · rw [getD_overlay (by rw [length_resize]), getD_resize]
    split_ifs with hi
    · rw [List.getD_eq_default _ _ (by omega)]
    · rfl
  · exact getD_overlay (by omega) i

/-- What a write or a truncation makes of a buffer. -/
def bufferOp (buffer : Bytes) : FileOp (Fin 256) → Bytes
  | .write offset data => writeAt buffer offset data
  | .truncate size => resize buffer size

/-- The length of the buffer then: a write reaches its offset even with no data. -/
def bufferLength (n : ℕ) : FileOp (Fin 256) → ℕ
  | .write offset data => max n (offset + data.length)
  | .truncate size => size

def buffered (ops : List (FileOp (Fin 256))) (buffer : Bytes) : Bytes :=
  ops.foldl bufferOp buffer

def bufferedLength (ops : List (FileOp (Fin 256))) (n : ℕ) : ℕ := ops.foldl bufferLength n

theorem getD_bufferOp (buffer : Bytes) (op : FileOp (Fin 256)) (i : ℕ) :
    (bufferOp buffer op).getD i 0 = (op.value? i).getD (buffer.getD i 0) := by
  cases op with
  | write offset data => exact getD_writeAt buffer offset data i
  | truncate size =>
      rw [bufferOp, getD_resize, FileOp.value?]
      split_ifs <;> rfl

theorem getD_buffered (ops : List (FileOp (Fin 256))) (buffer : Bytes) (i : ℕ) :
    (buffered ops buffer).getD i 0 = (valueAfter ops i).getD (buffer.getD i 0) := by
  unfold buffered
  induction ops generalizing buffer with
  | nil => rfl
  | cons op ops ih =>
      rw [List.foldl_cons, ih, getD_bufferOp, valueAfter_cons]
      cases valueAfter ops i <;> simp

theorem length_buffered (ops : List (FileOp (Fin 256))) (buffer : Bytes) :
    (buffered ops buffer).length = bufferedLength ops buffer.length := by
  unfold buffered bufferedLength
  induction ops generalizing buffer with
  | nil => rfl
  | cons op ops ih =>
      rw [List.foldl_cons, ih, List.foldl_cons]
      cases op with
      | write offset data => rw [bufferOp, length_writeAt, bufferLength]
      | truncate size => rw [bufferOp, length_resize, bufferLength]

/-- Truncations leave only zeros behind. -/
theorem getD_valueAfter_dropWhile (ops : List (FileOp (Fin 256))) (i : ℕ) :
    (valueAfter (ops.dropWhile FileOp.isTruncate) i).getD 0 = (valueAfter ops i).getD 0 := by
  induction ops with
  | nil => rfl
  | cons op ops ih =>
      cases op with
      | write offset data => rfl
      | truncate size =>
          rw [List.dropWhile_cons_of_pos rfl, ih, valueAfter_cons, FileOp.value?]
          cases valueAfter ops i <;> split_ifs <;> simp

/-- A truncation of the file itself. -/
theorem resize_currentData [Primitives] {mount : MountState} {path : Name} {content : Bytes}
    (h : mount.cat (Path.parse path) = .ok content) (size : ℕ) :
    resize (currentData mount path size) size = (FileOp.truncate size).apply content := by
  apply ext_getD
  · rw [length_resize, FileOp.length_apply]
    rfl
  · intro i
    rw [getD_resize, FileOp.getD_apply, FileOp.value?, currentData, h]
    split_ifs with hi hsize
    · rfl
    · omega
    · rfl

/-! ## Requests through a handle -/

section

variable [P : Primitives]

/-- One request, at the time given. -/
def handleOp (ino fh : ℕ) : ℤ × FileOp (Fin 256) → FuseM Unit
  | (_, .write offset data) => do
      let _ ← write fh offset data
  | (now, .truncate size) => do
      let _ ← setattr now ino (some size) none (some fh)

def handleOps (ino fh : ℕ) : List (ℤ × FileOp (Fin 256)) → FuseM Unit
  | [] => pure ()
  | request :: rest => do
      handleOp ino fh request
      handleOps ino fh rest

/-- How the kernel came by the handle. -/
inductive Handle where
  | opened (ino flags : ℕ)
  | created (parent : ℕ) (name : Name)

namespace Handle

/-- The request that gives the handle, with the inode it belongs to. -/
def begin (now : ℤ) : Handle → FuseM (ℕ × ℕ)
  | opened ino flags => do
      let fh ← «open» now ino flags
      pure (ino, fh)
  | created parent name => create now parent name

/-- What the file at the path holds when the handle is given. -/
def Holds (fs : FuseFs) (path : Name) (content : Bytes) : Handle → Prop
  | opened _ _ => fs.mount.cat (Path.parse path) = .ok content
  | created _ _ => content = []

/-- The operations have the effect they have on a POSIX file.  After `open` there are only
truncations, or the bytes that no operation touches are zero and the operations from the
first write on fix the length; after `create` every write of nothing is inside the file. -/
def Overlays (fs : FuseFs) (path : Name) (content : Bytes) (ops : List (FileOp (Fin 256))) :
    Handle → Prop
  | opened _ _ =>
      (∀ op ∈ ops, op.isTruncate = true) ∨
        (bufferedLength (ops.dropWhile FileOp.isTruncate) 0 = lengthAfter ops content.length ∧
          ∀ i, PosixFile.Untouched ops i → content.getD i 0 = 0)
  | created _ _ =>
      if ops = [] then fs.mount.cat (Path.parse path) = .ok []
      else bufferedLength ops 0 = lengthAfter ops 0

end Handle

/-- The handle has no buffer yet: the file is the one in the mount. -/
structure Unwritten (fs : FuseFs) (ino fh : ℕ) (path : Name) (content : Bytes) : Prop where
  inode : fs.inodes.getPath ino = some path
  buffer : fs.writeBuffers.get? fh = none
  content : fs.mount.cat (Path.parse path) = .ok content

/-- The handle has a buffer, which has changed if `dirty`. -/
structure Buffered (fs : FuseFs) (ino fh : ℕ) (path : Name) (data : Bytes) (dirty : Bool) :
    Prop where
  inode : fs.inodes.getPath ino = some path
  buffer : fs.writeBuffers.get? fh = some ⟨data, dirty⟩
  writable : fs.readOnly = false

variable {fs fs' : FuseFs} {ino fh : ℕ} {path : Name}

/-- A write, or a truncation of a buffer, goes into the buffer of the handle. -/
theorem Buffered.handleOp {data : Bytes} {dirty : Bool} {now : ℤ} {op : FileOp (Fin 256)}
    (h : Buffered fs ino fh path data dirty)
    (hrun : (handleOp ino fh (now, op)).run fs = .ok () fs') :
    Buffered fs' ino fh path (bufferOp data op) true := by
  cases op with
  | write offset written =>
      obtain ⟨_, hwrite⟩ := EStateM.exists_of_run_discard hrun
      obtain ⟨hwritable, rfl⟩ := write_eq_ok hwrite
      exact ⟨h.inode, by simp [h.buffer, bufferOp], hwritable⟩
  | truncate size =>
      obtain ⟨_, hsetattr⟩ := EStateM.exists_of_run_discard hrun
      obtain ⟨hwritable, path', truncated, hpath', htruncate, hattr⟩ :=
        setattr_size_eq_ok hsetattr
      obtain ⟨cache, rfl⟩ := fetchAttr_frame hattr
      obtain ⟨attr, before, hbefore, hcases⟩ := handleTruncate_eq_ok htruncate
      obtain ⟨cache', rfl⟩ := fetchAttr_frame hbefore
      rcases hcases with ⟨handle, buffer, hbuffer, rfl⟩ | ⟨hnone, -⟩
      · simp only [openBuffer, Option.bind_some, h.buffer, Option.map_some,
          Option.some.injEq, Prod.mk.injEq] at hbuffer
        obtain ⟨rfl, rfl⟩ := hbuffer
        exact ⟨h.inode, by simp [bufferOp], hwritable⟩
      · simp [openBuffer, h.buffer] at hnone

theorem Buffered.handleOps {data : Bytes} {requests : List (ℤ × FileOp (Fin 256))}
    (h : Buffered fs ino fh path data true)
    (hrun : (handleOps ino fh requests).run fs = .ok () fs') :
    Buffered fs' ino fh path (buffered (requests.map Prod.snd) data) true := by
  induction requests generalizing fs data with
  | nil =>
      simp [Fuse.handleOps] at hrun
      exact hrun ▸ h
  | cons request rest ih =>
      obtain ⟨_, middle, hop, hrest⟩ := EStateM.run_bind_eq_ok_iff.mp hrun
      exact ih (h.handleOp hop) hrest

/-- The first write starts from an empty buffer. -/
theorem Unwritten.write {content : Bytes} {now : ℤ} {offset : ℕ} {data : Bytes}
    (h : Unwritten fs ino fh path content)
    (hrun : (handleOp ino fh (now, .write offset data)).run fs = .ok () fs') :
    Buffered fs' ino fh path (bufferOp [] (.write offset data)) true := by
  obtain ⟨_, hwrite⟩ := EStateM.exists_of_run_discard hrun
  obtain ⟨hwritable, rfl⟩ := write_eq_ok hwrite
  exact ⟨h.inode, by simp [h.buffer, bufferOp], hwritable⟩

variable [LawfulPrimitives]

omit [LawfulPrimitives] in
/-- Bytes that were added are read back. -/
theorem Updated.cat {blobs : Blobs} {node node' : Node} {parents : List Name} {name : Name}
    {link : Link} {secret : Secret} {mime : Option Name} {blob data : Bytes}
    (h : Updated blobs (.data link secret mime) parents name node node')
    (hblob : blobs link.hash = some blob) (hdata : secret.decrypt blob = some data) :
    JaxFs.cat blobs node' (absPath (parents ++ [name])) = .ok data :=
  cat_absPath.mpr ⟨link, secret, mime, blob, h.findLink_self, hblob, hdata⟩

theorem cat_of_add {names : List Name} {data : Bytes} {mount mount' : MountState}
    (h : (add (absPath names) data).run mount = .ok () mount') :
    mount'.cat (absPath names) = .ok data := by
  obtain ⟨link, secret, world', blob, -, hblob, hdata, ⟨-, fault, hrun⟩ |
    ⟨parents, name, rfl, ⟨-, fault, hrun⟩ | ⟨-, state', hrun, hgrows, hupdated⟩⟩⟩ :=
    add_spec names data mount
  · rw [hrun] at h
    contradiction
  · rw [hrun] at h
    contradiction
  · rw [hrun] at h
    cases h
    exact Updated.cat hupdated (hgrows.1 _ _ hblob) hdata

/-- A truncation without a buffer is done on the file. -/
theorem Unwritten.truncate {names : List Name} (hnames : Path.parse path = absPath names)
    {content : Bytes} {now : ℤ} {size : ℕ} (h : Unwritten fs ino fh path content)
    (hrun : (handleOp ino fh (now, .truncate size)).run fs = .ok () fs') :
    Unwritten fs' ino fh path ((FileOp.truncate size).apply content) := by
  obtain ⟨_, middle, hsetattr, hrest⟩ := EStateM.run_bind_eq_ok_iff.mp hrun
  simp at hrest
  subst hrest
  obtain ⟨-, path', truncated, hpath', htruncate, hattr⟩ := setattr_size_eq_ok hsetattr
  cases h.inode.symm.trans hpath'
  obtain ⟨cache, rfl⟩ := fetchAttr_frame hattr
  obtain ⟨attr, before, hbefore, hcases⟩ := handleTruncate_eq_ok htruncate
  obtain ⟨cache', rfl⟩ := fetchAttr_frame hbefore
  rcases hcases with ⟨handle, buffer, hbuffer, -⟩ | ⟨-, mount, hadd, rfl⟩
  · simp [openBuffer, h.buffer] at hbuffer
  · rw [resize_currentData h.content, hnames] at hadd
    exact ⟨h.inode, h.buffer, by rw [hnames]; exact cat_of_add hadd⟩

/-- After `open`: truncations of the file, and from the first write on a buffer. -/
theorem Unwritten.handleOps {names : List Name} (hnames : Path.parse path = absPath names)
    {content : Bytes} {requests : List (ℤ × FileOp (Fin 256))}
    (h : Unwritten fs ino fh path content)
    (hrun : (handleOps ino fh requests).run fs = .ok () fs') :
    ((∀ op ∈ requests.map Prod.snd, op.isTruncate = true) ∧
        Unwritten fs' ino fh path (run (requests.map Prod.snd) content)) ∨
      ((¬ ∀ op ∈ requests.map Prod.snd, op.isTruncate = true) ∧
        Buffered fs' ino fh path
          (buffered ((requests.map Prod.snd).dropWhile FileOp.isTruncate) []) true) := by
  induction requests generalizing fs content with
  | nil =>
      simp [Fuse.handleOps] at hrun
      subst hrun
      exact Or.inl ⟨by simp, h⟩
  | cons request rest ih =>
      obtain ⟨_, middle, hop, hrest⟩ := EStateM.run_bind_eq_ok_iff.mp hrun
      obtain ⟨now, op⟩ := request
      cases op with
      | truncate size =>
          rcases ih (h.truncate hnames hop) hrest with ⟨hall, hunwritten⟩ | ⟨hnot, hbuffered⟩
          · exact Or.inl ⟨by simpa [FileOp.isTruncate] using hall, hunwritten⟩
          · exact Or.inr ⟨by simpa [FileOp.isTruncate] using hnot, hbuffered⟩
      | write offset data =>
          exact Or.inr ⟨by simp [FileOp.isTruncate], (h.write hop).handleOps hrest⟩

theorem Buffered.flush {names : List Name} (hnames : Path.parse path = absPath names)
    {data : Bytes} (h : Buffered fs ino fh path data true)
    (hrun : (flush ino fh).run fs = .ok () fs') :
    fs'.mount.cat (Path.parse path) = .ok data := by
  rcases flush_eq_ok hrun with ⟨hor, -⟩ | ⟨path', buffer, mount, hpath', hbuffer, -, hadd, rfl⟩
  · simp [h.writable, h.buffer] at hor
  · cases h.inode.symm.trans hpath'
    cases h.buffer.symm.trans hbuffer
    rw [hnames] at hadd ⊢
    exact cat_of_add hadd

omit [LawfulPrimitives] in
theorem unwritten_of_open {now : ℤ} {flags : ℕ} {content : Bytes}
    (hfresh : fs.writeBuffers.get? fs.nextFh = none)
    (hrun : ((Handle.opened ino flags).begin now).run fs = .ok (ino, fh) fs')
    (hpath : fs'.inodes.getPath ino = some path)
    (hcontent : fs'.mount.cat (Path.parse path) = .ok content) :
    Unwritten fs' ino fh path content := by
  obtain ⟨handle, middle, hopen, hrest⟩ := EStateM.run_bind_eq_ok_iff.mp hrun
  obtain ⟨rfl, path', attr, fetched, hpath', hattr, rfl⟩ := open_eq_ok hopen
  obtain ⟨cache, rfl⟩ := fetchAttr_frame hattr
  simp at hrest
  obtain ⟨rfl, rfl⟩ := hrest
  exact ⟨hpath, hfresh, hcontent⟩

omit [LawfulPrimitives] in
theorem buffered_of_create {now : ℤ} {parent : ℕ} {name : Name}
    (hrun : ((Handle.created parent name).begin now).run fs = .ok (ino, fh) fs')
    (hpath : fs'.inodes.getPath ino = some path) :
    Buffered fs' ino fh path [] false := by
  obtain ⟨hwritable, parentPath, mount, hparent, hadd, -, rfl, rfl⟩ := create_eq_ok hrun
  exact ⟨hpath, by simp, hwritable⟩

/-- What is flushed is the file with the operations applied exactly when the buffer does
not have to know the file. -/
theorem overlay_iff {handle : Handle} {now : ℤ} {names : List Name} {content : Bytes}
    {requests : List (ℤ × FileOp (Fin 256))} {fs₁ fs₂ fs₃ : FuseFs}
    (hfresh : fs.writeBuffers.get? fs.nextFh = none)
    (hbegin : (handle.begin now).run fs = .ok (ino, fh) fs₁)
    (hpath : fs₁.inodes.getPath ino = some path) (hnames : Path.parse path = absPath names)
    (hcontent : handle.Holds fs₁ path content)
    (hops : (handleOps ino fh requests).run fs₁ = .ok () fs₂)
    (hflush : (Fuse.flush ino fh).run fs₂ = .ok () fs₃) :
    fs₃.mount.cat (Path.parse path) = .ok (run (requests.map Prod.snd) content) ↔
      handle.Overlays fs₁ path content (requests.map Prod.snd) := by
  cases handle with
  | opened ino' flags =>
      have hino : ino' = ino := by
        obtain ⟨_, _, -, hrest⟩ := EStateM.run_bind_eq_ok_iff.mp hbegin
        simp at hrest
        exact hrest.1.1
      subst hino
      have hstart := unwritten_of_open hfresh hbegin hpath hcontent
      rcases hstart.handleOps hnames hops with ⟨hall, hend⟩ | ⟨hnot, hend⟩
      · have hsame : fs₃ = fs₂ := by
          rcases flush_eq_ok hflush with ⟨-, hsame⟩ | ⟨_, _, _, -, hbuffer, -⟩
          · exact hsame
          · simp [hend.buffer] at hbuffer
        rw [hsame, hend.content]
        exact iff_of_true rfl (Or.inl hall)
      · rw [hend.flush hnames hflush, Except.ok.injEq, run_eq_iff]
        · rw [length_buffered]
          exact (or_iff_right hnot).symm
        · intro i
          rw [getD_buffered, List.getD_nil, getD_valueAfter_dropWhile]
  | created parent name =>
      have hstart := buffered_of_create hbegin hpath
      cases hcontent
      cases requests with
      | nil =>
          simp [handleOps] at hops
          subst hops
          have hsame : fs₃ = fs₁ := by
            rcases flush_eq_ok hflush with ⟨-, hsame⟩ | ⟨_, _, _, -, hbuffer, hdirty, -⟩
            · exact hsame
            · rw [hstart.buffer, Option.some.injEq] at hbuffer
              subst hbuffer
              contradiction
          rw [hsame]
          simp [Handle.Overlays]
      | cons request rest =>
          obtain ⟨_, middle, hop, hrest⟩ := EStateM.run_bind_eq_ok_iff.mp hops
          have hend := (hstart.handleOp hop).handleOps hrest
          have hbytes : buffered (rest.map Prod.snd) (bufferOp [] request.2) =
              buffered ((request :: rest).map Prod.snd) [] := rfl
          rw [hend.flush hnames hflush, Except.ok.injEq, hbytes, run_eq_iff, length_buffered]
          · simp [Handle.Overlays]
          · intro i
            rw [getD_buffered, List.getD_nil]

/-- A file is empty after `create`, at the path of the inode that is returned. -/
theorem cat_of_create {now : ℤ} {parent : ℕ} {name parentPath : Name} {names : List Name}
    (hparent : fs.inodes.getPath parent = some parentPath)
    (hnormal : normalizePath (joinPath parentPath name) = joinPath parentPath name)
    (hnames : Path.parse (joinPath parentPath name) = absPath names)
    (hrun : (create now parent name).run fs = .ok (ino, fh) fs') :
    fs'.inodes.getPath ino = some (joinPath parentPath name) ∧
      fs'.mount.cat (Path.parse (joinPath parentPath name)) = .ok [] := by
  obtain ⟨-, parentPath', mount, hparent', hadd, rfl, -, rfl⟩ := create_eq_ok hrun
  cases hparent.symm.trans hparent'
  constructor
  · have hpath := fs.inodes.getPath_getOrCreate (joinPath parentPath name)
    rwa [hnormal] at hpath
  · rw [hnames] at hadd ⊢
    exact cat_of_add hadd

end

end Fuse

namespace Reference

open Fuse

/-- The file `/f` with three bytes. -/
def storedFs : FuseFs :=
  ((do
    let (ino, fh) ← Fuse.create 0 1 "f".toList
    discard (Fuse.write fh 0 [1, 2, 3])
    Fuse.flush ino fh : FuseM Unit).run freshFs).state

/-- One byte is written over the first of three. -/
theorem write_drops_rest : ∃ fs₁ fs₂ fs₃,
    ((Handle.opened 2 1).begin 0).run storedFs = .ok (2, 2) fs₁ ∧
    fs₁.mount.cat (absPath ["f".toList]) = .ok [1, 2, 3] ∧
    (handleOps 2 2 [(0, .write 0 [9])]).run fs₁ = .ok () fs₂ ∧
    (Fuse.flush 2 2).run fs₂ = .ok () fs₃ ∧
    fs₃.mount.cat (absPath ["f".toList]) = .ok [9] ∧
    run [.write 0 [9]] ([1, 2, 3] : Bytes) = [9, 2, 3] := by
  have htest : (((Handle.opened 2 1).begin 0).run storedFs).okWith (fun opened fs₁ =>
      decide (opened = (2, 2)) &&
      decide ((fs₁.mount.cat (absPath ["f".toList])).toOption = some [1, 2, 3]) &&
      ((handleOps 2 2 [(0, .write 0 [9])]).run fs₁).okWith (fun _ fs₂ =>
        ((Fuse.flush 2 2).run fs₂).okWith (fun _ fs₃ =>
          decide ((fs₃.mount.cat (absPath ["f".toList])).toOption = some [9])))) = true := by
    decide +kernel
  obtain ⟨opened, fs₁, hbegin, htest⟩ := EStateM.Result.exists_of_okWith htest
  simp only [Bool.and_eq_true, decide_eq_true_eq] at htest
  obtain ⟨⟨rfl, hcontent⟩, htest⟩ := htest
  obtain ⟨_, fs₂, hops, htest⟩ := EStateM.Result.exists_of_okWith htest
  obtain ⟨_, fs₃, hflush, htest⟩ := EStateM.Result.exists_of_okWith htest
  exact ⟨fs₁, fs₂, fs₃, hbegin, Except.eq_ok_of_toOption hcontent, hops, hflush,
    Except.eq_ok_of_toOption (of_decide_eq_true htest), by decide +kernel⟩

/-- A file that is written as a whole is what was written. -/
theorem whole_file_overlaid : ∃ fs₁ fs₂ fs₃,
    ((Handle.opened 2 1).begin 0).run storedFs = .ok (2, 2) fs₁ ∧
    (handleOps 2 2 [(0, .write 0 [7, 8, 9, 10])]).run fs₁ = .ok () fs₂ ∧
    (Fuse.flush 2 2).run fs₂ = .ok () fs₃ ∧
    (fs₃.mount.cat (Path.parse (pathString ["f".toList])) =
        .ok (run [.write 0 [7, 8, 9, 10]] ([1, 2, 3] : Bytes)) ↔
      (Handle.opened 2 1).Overlays fs₁ (pathString ["f".toList]) [1, 2, 3]
        [.write 0 [7, 8, 9, 10]]) := by
  have htest : storedFs.writeBuffers.get? storedFs.nextFh = none ∧
      (((Handle.opened 2 1).begin 0).run storedFs).okWith (fun opened fs₁ =>
      decide (opened = (2, 2)) &&
      decide (fs₁.inodes.getPath 2 = some (pathString ["f".toList])) &&
      decide ((fs₁.mount.cat (Path.parse (pathString ["f".toList]))).toOption =
        some [1, 2, 3]) &&
      ((handleOps 2 2 [(0, .write 0 [7, 8, 9, 10])]).run fs₁).okWith (fun _ fs₂ =>
        ((Fuse.flush 2 2).run fs₂).okWith (fun _ _ => true))) = true := by
    decide +kernel
  obtain ⟨hfresh, htest⟩ := htest
  obtain ⟨opened, fs₁, hbegin, htest⟩ := EStateM.Result.exists_of_okWith htest
  simp only [Bool.and_eq_true, decide_eq_true_eq] at htest
  obtain ⟨⟨⟨rfl, hpath⟩, hcontent⟩, htest⟩ := htest
  obtain ⟨_, fs₂, hops, htest⟩ := EStateM.Result.exists_of_okWith htest
  obtain ⟨_, fs₃, hflush, -⟩ := EStateM.Result.exists_of_okWith htest
  have hvalid : ∀ name ∈ ["f".toList], ValidName name := by
    simp only [List.mem_singleton, forall_eq]
    constructor <;> decide
  exact ⟨fs₁, fs₂, fs₃, hbegin, hops, hflush, overlay_iff hfresh hbegin hpath
    (parse_pathString hvalid) (Except.eq_ok_of_toOption hcontent) hops hflush⟩

end Reference

end JaxFs

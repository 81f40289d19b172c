import JaxFs.InodeTable
import JaxFs.MountManager
import JaxFs.MountAnswers

/-!
# The FUSE filesystem

`fuse/jax_fs.rs` and `fuse/cache.rs` of the daemon: the requests of the kernel against
one mount, with the inode table, the write buffers of the open handles and the cache.
Cache entries neither expire nor are evicted here, and the time a request reads from the
clock is an argument.  Saves are requested on a channel; they do not change the tree.
-/

namespace JaxFs

/-! ## The file cache -/

namespace FileCache

def empty : FileCache := ⟨KeyedMap.empty, KeyedMap.empty, KeyedMap.empty⟩

/-- The same code as `InodeTable::normalize_path`. -/
def normalizeKey (path : Name) : Name := normalizePath path

variable (cache : FileCache)

def getContent (path : Name) : Option CachedContent :=
  cache.content.get? (normalizeKey path)

def putContent (path : Name) (content : CachedContent) : FileCache :=
  { cache with content := cache.content.put (normalizeKey path) content }

def getAttr (path : Name) : Option CachedAttr := cache.attrs.get? (normalizeKey path)

def putAttr (path : Name) (attr : CachedAttr) : FileCache :=
  { cache with attrs := cache.attrs.put (normalizeKey path) attr }

def getDir (path : Name) : Option (List CachedDirEntry) :=
  cache.dirs.get? (normalizeKey path)

def putDir (path : Name) (entries : List CachedDirEntry) : FileCache :=
  { cache with dirs := cache.dirs.put (normalizeKey path) entries }

def invalidate (path : Name) : FileCache where
  content := cache.content.erase (normalizeKey path)
  attrs := cache.attrs.erase (normalizeKey path)
  dirs := cache.dirs.erase (normalizeKey path)

end FileCache

/-! ## The state -/

namespace Fuse

structure WriteBuffer where
  data : Bytes
  dirty : Bool

inductive Errno where
  | noent
  | io
  | inval
  | rofs
  | isdir
  deriving DecidableEq

/-- What ends a request early: the reply is an error number, or the code panics. -/
inductive FuseFault where
  | errno (code : Errno)
  | fault (fault : Fault)
  deriving DecidableEq

/-- The struct `JaxFs`. -/
structure FuseFs [Primitives] where
  mount : MountState
  mountId : Uuid
  inodes : InodeTable
  writeBuffers : FinMap ℕ WriteBuffer
  cache : FileCache
  /-- The save requests sent, when there is a channel for them. -/
  saveTx : Option (List Uuid)
  readOnly : Bool
  nextFh : ℕ

section

variable [P : Primitives]

abbrev FuseM := EStateM FuseFault FuseFs

def replyError {α : Type} (code : Errno) : FuseM α := throw (.errno code)

/-- A read of the mount; its errors are values. -/
def readMount {α : Type} (x : MountState → Except Fault α) :
    FuseM (Except MountError α) := fun fs =>
  match x fs.mount with
  | .ok a => .ok (.ok a) fs
  | .error (.error error) => .ok (.error error) fs
  | .error fault => .error (.fault fault) fs

/-- An operation on the mount; its errors are values. -/
def writeMount (x : MountM Unit) : FuseM (Except MountError Unit) := fun fs =>
  match x.run fs.mount with
  | .ok _ mount => .ok (.ok ()) { fs with mount := mount }
  | .error (.error error) mount => .ok (.error error) { fs with mount := mount }
  | .error fault mount => .error (.fault fault) { fs with mount := mount }

def modifyCache (f : FileCache → FileCache) : FuseM Unit :=
  modify (fun fs => { fs with cache := f fs.cache })

/-- `get_path` of the inode table, where every request starts. -/
def inodePath (inode : ℕ) : FuseM Name := do
  let fs ← getThe FuseFs
  match fs.inodes.getPath inode with
  | some path => pure path
  | none => replyError .noent

def inodeOf (path : Name) : FuseM ℕ := fun fs =>
  .ok (fs.inodes.getOrCreate path).1
    { fs with inodes := (fs.inodes.getOrCreate path).2 }

def requestSave : FuseM Unit :=
  modify (fun fs => { fs with saveTx := fs.saveTx.map (fun sent => sent ++ [fs.mountId]) })

def nextHandle : FuseM ℕ := fun fs =>
  .ok fs.nextFh { fs with nextFh := fs.nextFh + 1 }

def writable : FuseM Unit := do
  let fs ← getThe FuseFs
  if fs.readOnly then replyError .rofs else pure ()

def shouldFilter (name : Name) : Bool :=
  "._".toList.isPrefixOf name || decide (name = ".DS_Store".toList) ||
    decide (name = ".Spotlight-V100".toList)

/-! ## Fetching -/

/-- The attributes of a path that is not cached. -/
def findAttr (now : ℤ) (path : Name) : FuseM (Option CachedAttr) := do
  if path = ['/'] then pure (some ⟨0, true, none, now⟩)
  else
    match ← readMount (fun mount => mount.ls (Path.parse (parentPath path))) with
    | .error _ => pure none
    | .ok entries =>
        match entries.toList.find?
            (fun item => decide (item.1.fileName = some (filename path))) with
        | none => pure none
        | some (entryPath, link) =>
            if link.isDir then pure (some ⟨0, true, none, now⟩)
            else
              match ← readMount (fun mount => mount.cat (Path.join [.rootDir] entryPath)) with
              | .ok data => pure (some ⟨data.length, false, none, now⟩)
              | .error _ => pure (some ⟨0, false, none, now⟩)

def fetchAttr (now : ℤ) (path : Name) : FuseM (Option CachedAttr) := do
  let fs ← getThe FuseFs
  match fs.cache.getAttr path with
  | some attr => pure (some attr)
  | none => do
      match ← findAttr now path with
      | none => pure none
      | some attr =>
          modifyCache (fun cache => cache.putAttr path attr)
          pure (some attr)

/-- The entries of a listing, without the special files of macOS. -/
def dirEntries (entries : FinMap Path NodeLink) : List CachedDirEntry :=
  entries.toList.filterMap (fun item =>
    match item.1.fileName with
    | none => none
    | some name => if shouldFilter name then none else some ⟨name, item.2.isDir⟩)

def fetchDir (path : Name) : FuseM (Option (List CachedDirEntry)) := do
  let fs ← getThe FuseFs
  match fs.cache.getDir path with
  | some entries => pure (some entries)
  | none => do
      match ← readMount (fun mount => mount.ls (Path.parse path)) with
      | .error _ => pure none
      | .ok entries =>
          modifyCache (fun cache => cache.putDir path (dirEntries entries))
          pure (some (dirEntries entries))

def fetchContent (path : Name) : FuseM (Option CachedContent) := do
  let fs ← getThe FuseFs
  match fs.cache.getContent path with
  | some content => pure (some content)
  | none => do
      match ← readMount (fun mount => mount.cat (Path.parse path)) with
      | .error _ => pure none
      | .ok data =>
          modifyCache (fun cache =>
            cache.putContent path ⟨data, "application/octet-stream".toList⟩)
          pure (some ⟨data, "application/octet-stream".toList⟩)

/-! ## Requests that read -/

def lookup (now : ℤ) (parent : ℕ) (name : Name) : FuseM (ℕ × CachedAttr) := do
  if shouldFilter name then replyError .noent
  else do
    let parentPath ← inodePath parent
    match ← fetchAttr now (joinPath parentPath name) with
    | some attr =>
        let inode ← inodeOf (joinPath parentPath name)
        pure (inode, attr)
    | none => replyError .noent

def getattr (now : ℤ) (ino : ℕ) : FuseM CachedAttr := do
  let path ← inodePath ino
  match ← fetchAttr now path with
  | some attr => pure attr
  | none => replyError .noent

/-- The inodes of the entries of a directory. -/
def entryInodes (path : Name) : List CachedDirEntry → FuseM (List (ℕ × Bool × Name))
  | [] => pure []
  | entry :: rest => do
      let inode ← inodeOf (joinPath path entry.name)
      let others ← entryInodes path rest
      pure ((inode, entry.isDir, entry.name) :: others)

/-- `readdir`, with as much room in the reply as needed. -/
def readdir (ino offset : ℕ) : FuseM (List (ℕ × Bool × Name)) := do
  let path ← inodePath ino
  match ← fetchDir path with
  | none => replyError .io
  | some entries =>
      let parentIno ←
        if ino = InodeTable.rootInode then pure ino else inodeOf (parentPath path)
      let others ← entryInodes path entries
      pure (((ino, true, ['.']) :: (parentIno, true, ['.', '.']) :: others).drop offset)

/-- The bytes from an offset on, at most `size` of them. -/
def slice (data : Bytes) (offset size : ℕ) : Bytes := (data.drop offset).take size

def read (ino fh offset size : ℕ) : FuseM Bytes := do
  let fs ← getThe FuseFs
  match (fs.writeBuffers.get? fh).filter
      (fun buffer => decide (offset < buffer.data.length)) with
  | some buffer => pure (slice buffer.data offset size)
  | none => do
      let path ← inodePath ino
      match ← fetchContent path with
      | some content => pure (slice content.data offset size)
      | none => replyError .io

/-! ## Handles -/

/-- `O_WRONLY | O_RDWR | O_APPEND | O_TRUNC`. -/
def writeFlags : ℕ := 0x603

def «open» (now : ℤ) (ino flags : ℕ) : FuseM ℕ := do
  let path ← inodePath ino
  match ← fetchAttr now path with
  | none => replyError .noent
  | some _ =>
      let fs ← getThe FuseFs
      if fs.readOnly ∧ Nat.land flags writeFlags ≠ 0 then replyError .rofs
      else nextHandle

/-- `Vec::resize` with zeros. -/
def resize (data : Bytes) (size : ℕ) : Bytes :=
  data.take size ++ List.replicate (size - data.length) 0

/-- The extension of a buffer and the copy into it. -/
def writeAt (buffer : Bytes) (offset : ℕ) (data : Bytes) : Bytes :=
  let extended :=
    if buffer.length < offset + data.length then resize buffer (offset + data.length)
    else buffer
  extended.take offset ++ data ++ extended.drop (offset + data.length)

def putBuffer (fh : ℕ) (buffer : WriteBuffer) : FuseM Unit :=
  modify (fun fs => { fs with writeBuffers := fs.writeBuffers.put fh buffer })

def write (fh offset : ℕ) (data : Bytes) : FuseM ℕ := do
  writable
  let fs ← getThe FuseFs
  let buffer := (fs.writeBuffers.get? fh).getD ⟨[], false⟩
  putBuffer fh ⟨writeAt buffer.data offset data, true⟩
  pure data.length

/-- `handle_truncate` without a buffer: read, resize, write back. -/
def truncateFile (path : Name) (size : ℕ) : FuseM Unit := do
  let current ←
    if size = 0 then pure (.ok [])
    else readMount (fun mount => mount.cat (Path.parse path))
  let data := resize (current.toOption.getD []) size
  match ← writeMount (add (Path.parse path) data) with
  | .ok () => pure ()
  | .error _ => replyError .io

def handleTruncate (now : ℤ) (path : Name) (size : ℕ) (fh : Option ℕ) : FuseM Unit := do
  let attr ← fetchAttr now path
  if attr.any (fun attr => attr.isDir) then replyError .isdir
  else do
    let fs ← getThe FuseFs
    match fh.bind (fun fh => (fs.writeBuffers.get? fh).map (fun buffer => (fh, buffer))) with
    | some (fh, buffer) => putBuffer fh ⟨resize buffer.data size, true⟩
    | none => do
        truncateFile path size
        modifyCache (fun cache => cache.invalidate path)
        requestSave

/-- `setattr`, as far as the size and the modification time go. -/
def setattr (now : ℤ) (ino : ℕ) (size : Option ℕ) (mtime : Option ℤ) (fh : Option ℕ) :
    FuseM CachedAttr := do
  let path ← inodePath ino
  match size with
  | none => pure ()
  | some newSize => do
      writable
      handleTruncate now path newSize fh
  match mtime with
  | none => pure ()
  | some newMtime => do
      match ← fetchAttr now path with
      | none => pure ()
      | some attr =>
          modifyCache (fun cache => cache.putAttr path { attr with mtime := newMtime })
  match ← fetchAttr now path with
  | some attr => pure attr
  | none => replyError .noent

def flush (ino fh : ℕ) : FuseM Unit := do
  let fs ← getThe FuseFs
  if fs.readOnly then pure ()
  else do
    let path ← inodePath ino
    match (fs.writeBuffers.get? fh).filter WriteBuffer.dirty with
    | none => pure ()
    | some buffer => do
        match ← writeMount (add (Path.parse path) buffer.data) with
        | .error _ => replyError .io
        | .ok () => do
            putBuffer fh { buffer with dirty := false }
            modifyCache (fun cache => cache.invalidate path)
            requestSave

def release (fh : ℕ) : FuseM Unit :=
  modify (fun fs => { fs with writeBuffers := fs.writeBuffers.erase fh })

/-! ## Requests that change the tree -/

def create (now : ℤ) (parent : ℕ) (name : Name) : FuseM (ℕ × ℕ) := do
  writable
  let parentPath ← inodePath parent
  let path := joinPath parentPath name
  match ← writeMount (add (Path.parse path) []) with
  | .error _ => replyError .io
  | .ok () => do
      let inode ← inodeOf path
      modifyCache (fun cache => cache.putAttr path ⟨0, false, none, now⟩)
      let fh ← nextHandle
      putBuffer fh ⟨[], false⟩
      pure (inode, fh)

def mkdir (now : ℤ) (parent : ℕ) (name : Name) : FuseM ℕ := do
  writable
  let parentPath ← inodePath parent
  let path := joinPath parentPath name
  match ← writeMount (JaxFs.mkdir (Path.parse path)) with
  | .error _ => replyError .io
  | .ok () => do
      let inode ← inodeOf path
      modifyCache (fun cache => cache.putAttr path ⟨0, true, none, now⟩)
      modifyCache (fun cache => cache.invalidate parentPath)
      pure inode

/-- `unlink`; `rmdir` is the same. -/
def unlink (parent : ℕ) (name : Name) : FuseM Unit := do
  writable
  let parentPath ← inodePath parent
  let path := joinPath parentPath name
  match ← writeMount (rm (Path.parse path)) with
  | .error _ => replyError .io
  | .ok () => do
      modify (fun fs => { fs with inodes := (fs.inodes.removeByPath path).2 })
      modifyCache (fun cache => cache.invalidate path)
      modifyCache (fun cache => cache.invalidate parentPath)

def rmdir (parent : ℕ) (name : Name) : FuseM Unit := unlink parent name

def rename (parent : ℕ) (name : Name) (newparent : ℕ) (newname : Name) : FuseM Unit := do
  writable
  let oldParentPath ← inodePath parent
  let newParentPath ← inodePath newparent
  let oldPath := joinPath oldParentPath name
  let newPath := joinPath newParentPath newname
  match ← writeMount (mv (Path.parse oldPath) (Path.parse newPath)) with
  | .error _ => replyError .io
  | .ok () => do
      modify (fun fs => { fs with inodes := (fs.inodes.rename oldPath newPath).2 })
      modifyCache (fun cache => cache.invalidate oldPath)
      modifyCache (fun cache => cache.invalidate newPath)
      modifyCache (fun cache => cache.invalidate oldParentPath)
      if oldParentPath ≠ newParentPath then
        modifyCache (fun cache => cache.invalidate newParentPath)
      else pure ()

end

end Fuse

end JaxFs

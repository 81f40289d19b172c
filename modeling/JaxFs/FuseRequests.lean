import JaxFs.Fuse

/-!
# What a successful request has done

One inversion lemma for each step of the requests of `Fuse` and for each request that
changes the tree.  The requests that read leave everything but the cache and the inode
table alone.
-/

namespace JaxFs

namespace Fuse

section

variable [P : Primitives] {fs fs' : FuseFs}

@[simp] theorem run_replyError {α : Type} (code : Errno) (fs : FuseFs) :
    (replyError code : FuseM α).run fs = .error (.errno code) fs := rfl

theorem run_getThe_bind {α : Type} (f : FuseFs → FuseM α) (fs : FuseFs) :
    ((getThe FuseFs : FuseM FuseFs) >>= f).run fs = (f fs).run fs := rfl

@[simp] theorem run_modifyCache (f : FileCache → FileCache) (fs : FuseFs) :
    (modifyCache f).run fs = .ok () { fs with cache := f fs.cache } := rfl

@[simp] theorem run_inodeOf (path : Name) (fs : FuseFs) :
    (inodeOf path).run fs = .ok (fs.inodes.getOrCreate path).1
      { fs with inodes := (fs.inodes.getOrCreate path).2 } := rfl

@[simp] theorem run_nextHandle (fs : FuseFs) :
    nextHandle.run fs = .ok fs.nextFh { fs with nextFh := fs.nextFh + 1 } := rfl

@[simp] theorem run_putBuffer (fh : ℕ) (buffer : WriteBuffer) (fs : FuseFs) :
    (putBuffer fh buffer).run fs =
      .ok () { fs with writeBuffers := fs.writeBuffers.put fh buffer } := rfl

@[simp] theorem run_requestSave (fs : FuseFs) :
    requestSave.run fs =
      .ok () { fs with saveTx := fs.saveTx.map (fun sent => sent ++ [fs.mountId]) } := rfl

theorem run_inodePath_bind_eq_ok_iff {α : Type} {inode : ℕ} {k : Name → FuseM α} {a : α} :
    (inodePath inode >>= k).run fs = .ok a fs' ↔
      ∃ path, fs.inodes.getPath inode = some path ∧ (k path).run fs = .ok a fs' := by
  unfold inodePath
  rw [bind_assoc, run_getThe_bind]
  cases h : fs.inodes.getPath inode with
  | none => simp [EStateM.run_bind_of_error (run_replyError _ _)]
  | some path => simp

theorem run_writable_bind_eq_ok_iff {α : Type} {k : Unit → FuseM α} {a : α} :
    (writable >>= k).run fs = .ok a fs' ↔
      fs.readOnly = false ∧ (k ()).run fs = .ok a fs' := by
  unfold writable
  rw [bind_assoc, run_getThe_bind]
  cases h : fs.readOnly with
  | false => simp
  | true => simp [EStateM.run_bind_of_error (run_replyError _ _)]

theorem run_writeMount (x : MountM Unit) (fs : FuseFs) :
    (writeMount x).run fs =
      match x.run fs.mount with
      | .ok _ mount => .ok (.ok ()) { fs with mount := mount }
      | .error (.error error) mount => .ok (.error error) { fs with mount := mount }
      | .error fault mount => .error (.fault fault) { fs with mount := mount } := rfl

theorem run_writeMount_eq_ok_iff {x : MountM Unit} :
    (writeMount x).run fs = .ok (.ok ()) fs' ↔
      ∃ mount, x.run fs.mount = .ok () mount ∧ fs' = { fs with mount := mount } := by
  rw [run_writeMount]
  cases h : x.run fs.mount with
  | ok _ mount => simp [eq_comm]
  | error fault mount => cases fault <;> simp

/-- An operation on the mount that has to succeed for the request to. -/
theorem run_writeMount_bind_eq_ok {α : Type} {x : MountM Unit}
    {k : Except MountError Unit → FuseM α} {a : α}
    (hk : ∀ error, k (.error error) = replyError .io)
    (h : (writeMount x >>= k).run fs = .ok a fs') :
    ∃ mount, x.run fs.mount = .ok () mount ∧
      (k (.ok ())).run { fs with mount := mount } = .ok a fs' := by
  obtain ⟨result, middle, hx, hrest⟩ := EStateM.run_bind_eq_ok_iff.mp h
  cases result with
  | error error => simp [hk] at hrest
  | ok value =>
      obtain ⟨mount, hmount, rfl⟩ := run_writeMount_eq_ok_iff.mp hx
      exact ⟨mount, hmount, hrest⟩

theorem run_readMount {α : Type} (x : MountState → Except Fault α) (fs : FuseFs) :
    (readMount x).run fs =
      match x fs.mount with
      | .ok a => .ok (.ok a) fs
      | .error (.error error) => .ok (.error error) fs
      | .error fault => .error (.fault fault) fs := rfl

theorem run_readMount_eq_ok_iff {α : Type} {x : MountState → Except Fault α}
    {result : Except MountError α} :
    (readMount x).run fs = .ok result fs' ↔
      x fs.mount = result.mapError Fault.error ∧ fs' = fs := by
  rw [run_readMount]
  cases hx : x fs.mount with
  | ok a => cases result <;> simp [Except.mapError, eq_comm]
  | error fault => cases fault <;> cases result <;> simp [Except.mapError, eq_comm]

/-! ## Fetching -/

/-- The answer of a program that only reads the mount. -/
structure ReadsMount {α : Type} (x : FuseM α) : Prop where
  state : ∀ fs a fs', x.run fs = .ok a fs' → fs' = fs
  congr : ∀ fs fs' a, fs'.mount = fs.mount → x.run fs = .ok a fs → x.run fs' = .ok a fs'

theorem readsMount_pure {α : Type} (a : α) : ReadsMount (pure a : FuseM α) := by
  constructor
  · intro fs b fs' h
    simp at h
    exact h.2.symm
  · intro fs fs' b _ h
    simp at h ⊢
    exact h

theorem readsMount_readMount {α : Type} (x : MountState → Except Fault α) :
    ReadsMount (readMount x) := by
  constructor
  · intro fs result fs' h
    exact (run_readMount_eq_ok_iff.mp h).2
  · intro fs fs' result hmount h
    rw [run_readMount_eq_ok_iff] at h ⊢
    rw [hmount]
    exact ⟨h.1, rfl⟩

theorem ReadsMount.bind {α β : Type} {x : FuseM α} {f : α → FuseM β} (hx : ReadsMount x)
    (hf : ∀ a, ReadsMount (f a)) : ReadsMount (x >>= f) := by
  constructor
  · intro fs b fs' h
    obtain ⟨a, middle, hrun, hrest⟩ := EStateM.run_bind_eq_ok_iff.mp h
    rw [(hf a).state _ _ _ hrest, hx.state _ _ _ hrun]
  · intro fs fs' b hmount h
    obtain ⟨a, middle, hrun, hrest⟩ := EStateM.run_bind_eq_ok_iff.mp h
    have hmiddle := hx.state _ _ _ hrun
    subst hmiddle
    exact EStateM.run_bind_eq_ok_iff.mpr
      ⟨a, fs', hx.congr _ _ _ hmount hrun, (hf a).congr _ _ _ hmount hrest⟩

theorem readsMount_findAttr (now : ℤ) (path : Name) : ReadsMount (findAttr now path) := by
  unfold findAttr
  split_ifs
  · exact readsMount_pure _
  · refine (readsMount_readMount _).bind ?_
    rintro (error | entries)
    · exact readsMount_pure _
    · dsimp only
      split
      next => exact readsMount_pure _
      next entryPath link _ =>
        split_ifs
        · exact readsMount_pure _
        · refine (readsMount_readMount _).bind ?_
          rintro (error | data) <;> exact readsMount_pure _

/-- Attributes come from the cache, or from the mount and then into the cache. -/
theorem fetchAttr_eq_ok {now : ℤ} {path : Name} {result : Option CachedAttr}
    (h : (fetchAttr now path).run fs = .ok result fs') :
    (result = fs.cache.getAttr path ∧ result ≠ none ∧ fs' = fs) ∨
      (findAttr now path).run fs = .ok result fs ∧
        ((result = none ∧ fs' = fs) ∨
          ∃ attr, result = some attr ∧
            fs' = { fs with cache := fs.cache.putAttr path attr }) := by
  unfold fetchAttr at h
  rw [run_getThe_bind] at h
  cases hcached : fs.cache.getAttr path with
  | some attr =>
      left
      simp [hcached] at h
      simp [← h.1, h.2]
  | none =>
      right
      simp only [hcached] at h
      obtain ⟨found, middle, hfind, hrest⟩ := EStateM.run_bind_eq_ok_iff.mp h
      have hmiddle := (readsMount_findAttr now path).state _ _ _ hfind
      subst hmiddle
      cases found with
      | none =>
          simp at hrest
          exact ⟨by rw [hfind, hrest.1], Or.inl ⟨hrest.1.symm, hrest.2.symm⟩⟩
      | some attr =>
          simp [-bind_pure_comp] at hrest
          exact ⟨by rw [hfind, hrest.1], Or.inr ⟨attr, hrest.1.symm, hrest.2.symm⟩⟩

/-- What a request leaves alone that only reads. -/
theorem fetchAttr_frame {now : ℤ} {path : Name} {result : Option CachedAttr}
    (h : (fetchAttr now path).run fs = .ok result fs') :
    ∃ cache, fs' = { fs with cache := cache } := by
  rcases fetchAttr_eq_ok h with ⟨-, -, rfl⟩ | ⟨-, ⟨-, rfl⟩ | ⟨attr, -, rfl⟩⟩
  · exact ⟨_, rfl⟩
  · exact ⟨_, rfl⟩
  · exact ⟨_, rfl⟩

theorem fetchDir_eq_ok {path : Name} {result : Option (List CachedDirEntry)}
    (h : (fetchDir path).run fs = .ok result fs') :
    fs' = fs ∨ ∃ items, fs.mount.ls (Path.parse path) = .ok items ∧
      fs' = { fs with cache := fs.cache.putDir path (dirEntries items) } := by
  unfold fetchDir at h
  rw [run_getThe_bind] at h
  cases hcached : fs.cache.getDir path with
  | some entries =>
      simp [hcached] at h
      exact Or.inl h.2.symm
  | none =>
      simp only [hcached] at h
      obtain ⟨read, _, hread, hrest⟩ := EStateM.run_bind_eq_ok_iff.mp h
      obtain ⟨hls, rfl⟩ := run_readMount_eq_ok_iff.mp hread
      cases read with
      | error error =>
          simp at hrest
          exact Or.inl hrest.2.symm
      | ok items =>
          simp [-bind_pure_comp] at hrest
          exact Or.inr ⟨items, hls, hrest.2.symm⟩

/-- The content that is cached has no media type of its own. -/
def octetStream (data : Bytes) : CachedContent := ⟨data, "application/octet-stream".toList⟩

theorem fetchContent_eq_ok {path : Name} {result : Option CachedContent}
    (h : (fetchContent path).run fs = .ok result fs') :
    fs' = fs ∨ ∃ data, fs.mount.cat (Path.parse path) = .ok data ∧
      fs' = { fs with cache := fs.cache.putContent path (octetStream data) } := by
  unfold fetchContent at h
  rw [run_getThe_bind] at h
  cases hcached : fs.cache.getContent path with
  | some content =>
      simp [hcached] at h
      exact Or.inl h.2.symm
  | none =>
      simp only [hcached] at h
      obtain ⟨read, _, hread, hrest⟩ := EStateM.run_bind_eq_ok_iff.mp h
      obtain ⟨hcat, rfl⟩ := run_readMount_eq_ok_iff.mp hread
      cases read with
      | error error =>
          simp at hrest
          exact Or.inl hrest.2.symm
      | ok data =>
          simp [-bind_pure_comp] at hrest
          exact Or.inr ⟨data, hcat, hrest.2.symm⟩

/-! ## Requests that read -/

theorem lookup_eq_ok {now : ℤ} {parent : ℕ} {name : Name} {found : ℕ × CachedAttr}
    (h : (lookup now parent name).run fs = .ok found fs') :
    ∃ parentPath attr middle inodes, fs.inodes.getPath parent = some parentPath ∧
      (fetchAttr now (joinPath parentPath name)).run fs = .ok attr middle ∧
      fs' = { middle with inodes := inodes } := by
  unfold lookup at h
  split_ifs at h
  · simp at h
  · obtain ⟨parentPath, hparent, h⟩ := run_inodePath_bind_eq_ok_iff.mp h
    obtain ⟨attr, middle, hattr, h⟩ := EStateM.run_bind_eq_ok_iff.mp h
    refine ⟨parentPath, attr, middle, fs'.inodes, hparent, hattr, ?_⟩
    cases attr with
    | none => simp at h
    | some attr =>
        simp [-bind_pure_comp] at h
        rw [← h.2]

theorem getattr_eq_ok {now : ℤ} {ino : ℕ} {attr : CachedAttr}
    (h : (getattr now ino).run fs = .ok attr fs') :
    ∃ path, fs.inodes.getPath ino = some path ∧
      (fetchAttr now path).run fs = .ok (some attr) fs' := by
  unfold getattr at h
  obtain ⟨path, hpath, h⟩ := run_inodePath_bind_eq_ok_iff.mp h
  obtain ⟨found, middle, hfound, h⟩ := EStateM.run_bind_eq_ok_iff.mp h
  refine ⟨path, hpath, ?_⟩
  cases found with
  | none => simp at h
  | some found =>
      simp at h
      rw [hfound, h.1, h.2]

theorem entryInodes_frame (path : Name) (entries : List CachedDirEntry) (fs : FuseFs) :
    ∃ numbers inodes, (entryInodes path entries).run fs =
      .ok numbers { fs with inodes := inodes } := by
  induction entries generalizing fs with
  | nil => exact ⟨[], fs.inodes, rfl⟩
  | cons entry rest ih =>
      obtain ⟨numbers, inodes, hrest⟩ := ih
        { fs with inodes := (fs.inodes.getOrCreate (joinPath path entry.name)).2 }
      refine ⟨((fs.inodes.getOrCreate (joinPath path entry.name)).1, entry.isDir,
        entry.name) :: numbers, inodes, ?_⟩
      rw [entryInodes, EStateM.run_bind_of_ok (run_inodeOf _ _),
        EStateM.run_bind_of_ok hrest]
      rfl

theorem readdir_eq_ok {ino offset : ℕ} {reply : List (ℕ × Bool × Name)}
    (h : (readdir ino offset).run fs = .ok reply fs') :
    ∃ path entries middle inodes, fs.inodes.getPath ino = some path ∧
      (fetchDir path).run fs = .ok entries middle ∧ fs' = { middle with inodes := inodes } := by
  unfold readdir at h
  obtain ⟨path, hpath, h⟩ := run_inodePath_bind_eq_ok_iff.mp h
  obtain ⟨entries, middle, hentries, h⟩ := EStateM.run_bind_eq_ok_iff.mp h
  refine ⟨path, entries, middle, fs'.inodes, hpath, hentries, ?_⟩
  cases entries with
  | none => simp at h
  | some entries =>
      have hlisted : ∃ parentIno inodes, (do
          let others ← entryInodes path entries
          pure (((ino, true, ['.']) :: (parentIno, true, ['.', '.']) :: others).drop offset) :
            FuseM (List (ℕ × Bool × Name))).run { middle with inodes := inodes } =
          .ok reply fs' := by
        dsimp only at h
        split_ifs at h
        · exact ⟨ino, middle.inodes, h⟩
        · exact ⟨_, _, h⟩
      obtain ⟨parentIno, inodes, hlisted⟩ := hlisted
      obtain ⟨numbers, inodes', hrun⟩ :=
        entryInodes_frame path entries { middle with inodes := inodes }
      rw [EStateM.run_bind_of_ok hrun] at hlisted
      simp at hlisted
      rw [← hlisted.2]

theorem read_eq_ok {ino fh offset size : ℕ} {data : Bytes}
    (h : (read ino fh offset size).run fs = .ok data fs') :
    fs' = fs ∨ ∃ path content, fs.inodes.getPath ino = some path ∧
      (fetchContent path).run fs = .ok content fs' := by
  unfold read at h
  rw [run_getThe_bind] at h
  split at h
  · simp at h
    exact Or.inl h.2.symm
  · right
    obtain ⟨path, hpath, h⟩ := run_inodePath_bind_eq_ok_iff.mp h
    obtain ⟨content, middle, hcontent, h⟩ := EStateM.run_bind_eq_ok_iff.mp h
    refine ⟨path, content, hpath, ?_⟩
    cases content with
    | none => simp at h
    | some content =>
        simp at h
        rw [hcontent, h.2]

theorem open_eq_ok {now : ℤ} {ino flags fh : ℕ}
    (h : («open» now ino flags).run fs = .ok fh fs') :
    fh = fs.nextFh ∧ ∃ path attr middle, fs.inodes.getPath ino = some path ∧
      (fetchAttr now path).run fs = .ok attr middle ∧
      fs' = { middle with nextFh := middle.nextFh + 1 } := by
  unfold «open» at h
  obtain ⟨path, hpath, h⟩ := run_inodePath_bind_eq_ok_iff.mp h
  obtain ⟨attr, middle, hattr, h⟩ := EStateM.run_bind_eq_ok_iff.mp h
  obtain ⟨cache, hframe⟩ := fetchAttr_frame hattr
  have hnext : middle.nextFh = fs.nextFh := by rw [hframe]
  cases attr with
  | none => simp at h
  | some attr =>
      dsimp only at h
      rw [run_getThe_bind] at h
      split_ifs at h
      · simp at h
      · simp at h
        exact ⟨h.1.symm.trans hnext, path, _, middle, hpath, hattr, h.2.symm⟩

/-! ## Requests that change the tree -/

/-- The cache after a rename. -/
def renamedCache (cache : FileCache) (oldParent newParent oldPath newPath : Name) :
    FileCache :=
  let cache := ((cache.invalidate oldPath).invalidate newPath).invalidate oldParent
  if oldParent ≠ newParent then cache.invalidate newParent else cache

theorem rename_eq_ok {parent newparent : ℕ} {name newname : Name}
    (h : (rename parent name newparent newname).run fs = .ok () fs') :
    fs.readOnly = false ∧ ∃ oldParent newParent mount,
      fs.inodes.getPath parent = some oldParent ∧
      fs.inodes.getPath newparent = some newParent ∧
      (mv (Path.parse (joinPath oldParent name)) (Path.parse (joinPath newParent newname))).run
        fs.mount = .ok () mount ∧
      fs' = { fs with
        mount := mount
        inodes := (fs.inodes.rename (joinPath oldParent name) (joinPath newParent newname)).2
        cache := renamedCache fs.cache oldParent newParent (joinPath oldParent name)
          (joinPath newParent newname) } := by
  unfold rename at h
  obtain ⟨hwritable, h⟩ := run_writable_bind_eq_ok_iff.mp h
  obtain ⟨oldParent, hold, h⟩ := run_inodePath_bind_eq_ok_iff.mp h
  obtain ⟨newParent, hnew, h⟩ := run_inodePath_bind_eq_ok_iff.mp h
  obtain ⟨mount, hmv, h⟩ := run_writeMount_bind_eq_ok (fun _ => rfl) h
  refine ⟨hwritable, oldParent, newParent, mount, hold, hnew, hmv, ?_⟩
  unfold renamedCache
  by_cases hparents : oldParent = newParent
  · simpa [hparents, eq_comm] using h
  · simpa [hparents, eq_comm] using h

theorem unlink_eq_ok {parent : ℕ} {name : Name}
    (h : (unlink parent name).run fs = .ok () fs') :
    fs.readOnly = false ∧ ∃ parentPath mount,
      fs.inodes.getPath parent = some parentPath ∧
      (rm (Path.parse (joinPath parentPath name))).run fs.mount = .ok () mount ∧
      fs' = { fs with
        mount := mount
        inodes := (fs.inodes.removeByPath (joinPath parentPath name)).2
        cache := (fs.cache.invalidate (joinPath parentPath name)).invalidate parentPath } := by
  unfold unlink at h
  obtain ⟨hwritable, h⟩ := run_writable_bind_eq_ok_iff.mp h
  obtain ⟨parentPath, hparent, h⟩ := run_inodePath_bind_eq_ok_iff.mp h
  obtain ⟨mount, hrm, h⟩ := run_writeMount_bind_eq_ok (fun _ => rfl) h
  exact ⟨hwritable, parentPath, mount, hparent, hrm, by simpa [-bind_pure_comp, eq_comm] using h⟩

theorem mkdir_eq_ok {parent inode : ℕ} {name : Name} {now : ℤ}
    (h : (mkdir now parent name).run fs = .ok inode fs') :
    fs.readOnly = false ∧ ∃ parentPath mount,
      fs.inodes.getPath parent = some parentPath ∧
      (JaxFs.mkdir (Path.parse (joinPath parentPath name))).run fs.mount = .ok () mount ∧
      inode = (fs.inodes.getOrCreate (joinPath parentPath name)).1 ∧
      fs' = { fs with
        mount := mount
        inodes := (fs.inodes.getOrCreate (joinPath parentPath name)).2
        cache := (fs.cache.putAttr (joinPath parentPath name) ⟨0, true, none, now⟩).invalidate
          parentPath } := by
  unfold mkdir at h
  obtain ⟨hwritable, h⟩ := run_writable_bind_eq_ok_iff.mp h
  obtain ⟨parentPath, hparent, h⟩ := run_inodePath_bind_eq_ok_iff.mp h
  obtain ⟨mount, hmkdir, h⟩ := run_writeMount_bind_eq_ok (fun _ => rfl) h
  exact ⟨hwritable, parentPath, mount, hparent, hmkdir, by simpa [-bind_pure_comp, eq_comm] using h⟩

theorem create_eq_ok {parent inode fh : ℕ} {name : Name} {now : ℤ}
    (h : (create now parent name).run fs = .ok (inode, fh) fs') :
    fs.readOnly = false ∧ ∃ parentPath mount,
      fs.inodes.getPath parent = some parentPath ∧
      (add (Path.parse (joinPath parentPath name)) []).run fs.mount = .ok () mount ∧
      inode = (fs.inodes.getOrCreate (joinPath parentPath name)).1 ∧ fh = fs.nextFh ∧
      fs' = { fs with
        mount := mount
        inodes := (fs.inodes.getOrCreate (joinPath parentPath name)).2
        cache := fs.cache.putAttr (joinPath parentPath name) ⟨0, false, none, now⟩
        writeBuffers := fs.writeBuffers.put fs.nextFh ⟨[], false⟩
        nextFh := fs.nextFh + 1 } := by
  unfold create at h
  obtain ⟨hwritable, h⟩ := run_writable_bind_eq_ok_iff.mp h
  obtain ⟨parentPath, hparent, h⟩ := run_inodePath_bind_eq_ok_iff.mp h
  obtain ⟨mount, hadd, h⟩ := run_writeMount_bind_eq_ok (fun _ => rfl) h
  exact ⟨hwritable, parentPath, mount, hparent, hadd,
    by simpa [-bind_pure_comp, eq_comm, and_assoc] using h⟩

/-! ## Writing through a handle -/

theorem write_eq_ok {fh offset count : ℕ} {data : Bytes}
    (h : (write fh offset data).run fs = .ok count fs') :
    fs.readOnly = false ∧
      fs' = { fs with
        writeBuffers := fs.writeBuffers.put fh
          ⟨writeAt ((fs.writeBuffers.get? fh).getD ⟨[], false⟩).data offset data, true⟩ } := by
  unfold write at h
  obtain ⟨hwritable, h⟩ := run_writable_bind_eq_ok_iff.mp h
  rw [run_getThe_bind] at h
  simp [-bind_pure_comp] at h
  exact ⟨hwritable, h.2.symm⟩

/-- What the file holds that a truncation rewrites. -/
def currentData (mount : MountState) (path : Name) (size : ℕ) : Bytes :=
  if size = 0 then [] else (mount.cat (Path.parse path)).toOption.getD []

/-- What a truncation reads first. -/
theorem exists_current_of_truncateFile {path : Name} {size : ℕ}
    (h : (truncateFile path size).run fs = .ok () fs') :
    ∃ current : Except MountError Bytes,
      current.toOption.getD [] = currentData fs.mount path size ∧
      (do
        match ← writeMount (add (Path.parse path)
            (resize (current.toOption.getD []) size)) with
        | .ok () => pure ()
        | .error _ => replyError .io : FuseM Unit).run fs = .ok () fs' := by
  unfold truncateFile at h
  unfold currentData
  split_ifs at h ⊢ with hsize
  · exact ⟨.ok [], rfl, h⟩
  · obtain ⟨current, _, hcurrent, hrest⟩ := EStateM.run_bind_eq_ok_iff.mp h
    obtain ⟨hcat, rfl⟩ := run_readMount_eq_ok_iff.mp hcurrent
    refine ⟨current, ?_, hrest⟩
    rw [hcat]
    cases current <;> rfl

theorem truncateFile_eq_ok {path : Name} {size : ℕ}
    (h : (truncateFile path size).run fs = .ok () fs') :
    ∃ mount, (add (Path.parse path) (resize (currentData fs.mount path size) size)).run
      fs.mount = .ok () mount ∧ fs' = { fs with mount := mount } := by
  obtain ⟨current, hdata, h⟩ := exists_current_of_truncateFile h
  obtain ⟨mount, hmount, h⟩ := run_writeMount_bind_eq_ok (fun _ => rfl) h
  rw [hdata] at hmount
  simp at h
  exact ⟨mount, hmount, h.symm⟩

/-- The buffer of the handle that a request names, if it names one. -/
def openBuffer (fs : FuseFs) (fh : Option ℕ) : Option (ℕ × WriteBuffer) :=
  fh.bind (fun fh => (fs.writeBuffers.get? fh).map (fun buffer => (fh, buffer)))

theorem handleTruncate_eq_ok {now : ℤ} {path : Name} {size : ℕ} {fh : Option ℕ}
    (h : (handleTruncate now path size fh).run fs = .ok () fs') :
    ∃ attr middle, (fetchAttr now path).run fs = .ok attr middle ∧
      ((∃ handle buffer, openBuffer fs fh = some (handle, buffer) ∧
          fs' = { middle with
            writeBuffers := fs.writeBuffers.put handle ⟨resize buffer.data size, true⟩ }) ∨
        (openBuffer fs fh = none ∧ ∃ mount,
          (add (Path.parse path) (resize (currentData fs.mount path size) size)).run fs.mount =
            .ok () mount ∧
          fs' = { middle with
            mount := mount
            cache := middle.cache.invalidate path
            saveTx := fs.saveTx.map (fun sent => sent ++ [fs.mountId]) })) := by
  unfold handleTruncate at h
  obtain ⟨attr, middle, hattr, h⟩ := EStateM.run_bind_eq_ok_iff.mp h
  refine ⟨attr, middle, hattr, ?_⟩
  obtain ⟨cache, rfl⟩ := fetchAttr_frame hattr
  split_ifs at h
  · simp at h
  · rw [run_getThe_bind] at h
    have hopen : fh.bind (fun fh =>
        (fs.writeBuffers.get? fh).map (fun buffer => (fh, buffer))) = openBuffer fs fh := rfl
    rw [hopen] at h
    cases hbuffer : openBuffer fs fh with
    | some opened =>
        left
        simp [hbuffer] at h
        exact ⟨opened.1, opened.2, rfl, h.symm⟩
    | none =>
        right
        simp only [hbuffer] at h
        obtain ⟨_, written, hwritten, h⟩ := EStateM.run_bind_eq_ok_iff.mp h
        obtain ⟨mount, hmount, rfl⟩ := truncateFile_eq_ok hwritten
        simp at h
        exact ⟨rfl, mount, hmount, h.symm⟩

/-- A truncation through `setattr`: the last fetch fills the cache. -/
theorem setattr_size_eq_ok {now : ℤ} {ino size : ℕ} {fh : Option ℕ} {attr : CachedAttr}
    (h : (setattr now ino (some size) none fh).run fs = .ok attr fs') :
    fs.readOnly = false ∧ ∃ path truncated,
      fs.inodes.getPath ino = some path ∧
      (handleTruncate now path size fh).run fs = .ok () truncated ∧
      (fetchAttr now path).run truncated = .ok (some attr) fs' := by
  unfold setattr at h
  obtain ⟨path, hpath, h⟩ := run_inodePath_bind_eq_ok_iff.mp h
  obtain ⟨hwritable, h⟩ := run_writable_bind_eq_ok_iff.mp h
  obtain ⟨_, truncated, htruncated, h⟩ := EStateM.run_bind_eq_ok_iff.mp h
  obtain ⟨found, after, hfound, h⟩ := EStateM.run_bind_eq_ok_iff.mp h
  refine ⟨hwritable, path, truncated, hpath, htruncated, ?_⟩
  cases found with
  | none => simp at h
  | some found =>
      simp at h
      rw [hfound, h.1, h.2]

theorem flush_eq_ok {ino fh : ℕ} (h : (flush ino fh).run fs = .ok () fs') :
    ((fs.readOnly = true ∨ (fs.writeBuffers.get? fh).filter WriteBuffer.dirty = none) ∧
      fs' = fs) ∨
    ∃ path buffer mount, fs.inodes.getPath ino = some path ∧
      fs.writeBuffers.get? fh = some buffer ∧ buffer.dirty = true ∧
      (add (Path.parse path) buffer.data).run fs.mount = .ok () mount ∧
      fs' = { fs with
        mount := mount
        writeBuffers := fs.writeBuffers.put fh { buffer with dirty := false }
        cache := fs.cache.invalidate path
        saveTx := fs.saveTx.map (fun sent => sent ++ [fs.mountId]) } := by
  unfold flush at h
  rw [run_getThe_bind] at h
  split_ifs at h with hreadOnly
  · left
    simp at h
    exact ⟨Or.inl hreadOnly, h.symm⟩
  · obtain ⟨path, hpath, h⟩ := run_inodePath_bind_eq_ok_iff.mp h
    cases hbuffer : (fs.writeBuffers.get? fh).filter WriteBuffer.dirty with
    | none =>
        left
        simp [hbuffer] at h
        exact ⟨Or.inr rfl, h.symm⟩
    | some buffer =>
        right
        simp only [hbuffer] at h
        obtain ⟨mount, hmount, h⟩ := run_writeMount_bind_eq_ok (fun _ => rfl) h
        obtain ⟨hget, hdirty⟩ := Option.filter_eq_some_iff.mp hbuffer
        simp at h
        exact ⟨path, buffer, mount, hpath, hget, hdirty, hmount, h.symm⟩

end

end Fuse

end JaxFs

import JaxFs.FuseRequests
import JaxFs.StoredVersion

/-!
# Inodes across a rename

`rename` moves a whole branch of the tree with one link, but gives the new path to one
inode only, the one registered for the old path.  `CarriesAll` says when that is enough.
-/

namespace JaxFs

/-- The paths a rename concerns. -/
def AtOrBelow (old path : Name) : Prop := path = old ∨ old ++ ['/'] <+: path

instance (old path : Name) : Decidable (AtOrBelow old path) :=
  inferInstanceAs (Decidable (_ ∨ _))

/-- Where the node at a path is after the rename. -/
def movedPath (old new path : Name) : Name :=
  if AtOrBelow old path then new ++ path.drop old.length else path

namespace InodeTable

/-- Every inode has the path of the node it had before. -/
def Follows (before after : InodeTable) (old new : Name) : Prop :=
  ∀ inode, after.getPath inode = (before.getPath inode).map (movedPath old new)

/-- No inode lies below the renamed path, its own inode is registered for it, and the
strings are in normal form. -/
structure CarriesAll (table : InodeTable) (old new : Name) : Prop where
  nothing_below : ∀ inode path, table.getPath inode = some path → ¬ old ++ ['/'] <+: path
  registered : ∀ inode, table.getPath inode = some old →
    table.getInode old = some inode ∧ normalizePath new = new
  normal : ∀ inode, table.getInode old = some inode →
    normalizePath old = old ∨ normalizePath new = normalizePath old

variable {table : InodeTable} {old new : Name}

theorem getPath_rename (inode : ℕ) :
    (table.rename old new).2.getPath inode =
      if table.getInode old = some inode then some (normalizePath new)
      else table.getPath inode := by
  unfold rename getInode getPath
  split
  next other hold =>
    have hiff : table.pathToInode.get? (normalizePath old) = some inode ↔ other = inode := by
      simp [hold]
    simp only [FinMap.get?_put, hiff]
  next hold =>
    simp [hold]

theorem movedPath_self : movedPath old new old = new := by
  simp [movedPath, AtOrBelow]

theorem movedPath_eq_self_iff (hne : old ≠ new) {path : Name} :
    movedPath old new path = path ↔ ¬ AtOrBelow old path := by
  unfold movedPath
  split_ifs with h
  · have hpath : old ++ path.drop old.length = path := by
      rcases h with rfl | ⟨rest, rfl⟩
      · simp
      · simp
    simp only [h, not_true_eq_false, iff_false]
    intro hmoved
    rw [← hpath] at hmoved
    simp at hmoved
    exact hne hmoved.symm
  · simp [h]

/-- The normal form of an absolute path is at or below it only if it is the path. -/
theorem atOrBelow_normalizePath_iff (h : old.head? = some '/') :
    AtOrBelow old (normalizePath old) ↔ normalizePath old = old := by
  refine ⟨fun hor => hor.resolve_right ?_, Or.inl⟩
  intro hbelow
  have hlong := hbelow.length_le
  have hshort := length_normalizePath_le h
  simp at hlong
  omega

theorem CarriesAll.of_follows (hne : old ≠ new) (hroot : old.head? = some '/')
    (h : Follows table (table.rename old new).2 old new) : CarriesAll table old new := by
  have hregistered : ∀ inode path, table.getPath inode = some path → AtOrBelow old path →
      table.getInode old = some inode := by
    intro inode path hpath hbelow
    by_contra hother
    have hinode := h inode
    rw [getPath_rename, if_neg hother, hpath, Option.map_some, Option.some.injEq] at hinode
    exact (movedPath_eq_self_iff hne).mp hinode.symm hbelow
  have hnew : ∀ inode, table.getInode old = some inode →
      normalizePath new = movedPath old new (normalizePath old) := by
    intro inode hinode
    have hfollows := h inode
    rw [getPath_rename, if_pos hinode, getPath_of_getInode hinode] at hfollows
    simpa using hfollows
  constructor
  · intro inode path hpath hbelow
    have hinode := hregistered inode path hpath (Or.inr hbelow)
    rw [getPath_of_getInode hinode, Option.some.injEq] at hpath
    subst hpath
    have heq := (atOrBelow_normalizePath_iff hroot).mp (Or.inr hbelow)
    have hlong := hbelow.length_le
    simp [heq] at hlong
  · intro inode hpath
    have hinode := hregistered inode old hpath (Or.inl rfl)
    have hold := getPath_of_getInode hinode
    rw [hpath, Option.some.injEq] at hold
    refine ⟨hinode, ?_⟩
    rw [hnew inode hinode, ← hold, movedPath_self]
  · intro inode hinode
    by_cases hbelow : AtOrBelow old (normalizePath old)
    · exact Or.inl ((atOrBelow_normalizePath_iff hroot).mp hbelow)
    · right
      rw [hnew inode hinode, (movedPath_eq_self_iff hne).mpr hbelow]

theorem CarriesAll.follows (hne : old ≠ new) (hroot : old.head? = some '/')
    (h : CarriesAll table old new) : Follows table (table.rename old new).2 old new := by
  intro inode
  rw [getPath_rename]
  split_ifs with hinode
  · have hpath := getPath_of_getInode hinode
    rw [hpath, Option.map_some, Option.some.injEq]
    by_cases hold : normalizePath old = old
    · rw [hold] at hpath
      rw [hold, movedPath_self, (h.registered inode hpath).2]
    · have hbelow := (atOrBelow_normalizePath_iff hroot).not.mpr hold
      rw [(movedPath_eq_self_iff hne).mpr hbelow]
      exact (h.normal inode hinode).resolve_left hold
  · cases hpath : table.getPath inode with
    | none => rfl
    | some path =>
        have haside : ¬ AtOrBelow old path := by
          rintro (rfl | hbelow)
          · exact hinode (h.registered inode hpath).1
          · exact h.nothing_below inode path hpath hbelow
        rw [Option.map_some, (movedPath_eq_self_iff hne).mpr haside]

end InodeTable

section

variable [P : Primitives]

/-- Nothing can be moved onto itself. -/
theorem mv_ne {source target : Path} {state state' : MountState}
    (h : (mv source target).run state = .ok () state') : source ≠ target := by
  rintro rfl
  unfold mv at h
  obtain ⟨_, _, -, h⟩ := EStateM.run_bind_eq_ok_iff.mp h
  obtain ⟨_, _, -, h⟩ := EStateM.run_bind_eq_ok_iff.mp h
  simp [Path.startsWith] at h

namespace Fuse

/-- After a rename that succeeds the inodes follow their nodes exactly when no inode lies
below the renamed path and the path has no inode but the registered one. -/
theorem inodesFollow_iff {fs fs' : FuseFs} {parent newparent : ℕ}
    {name newname oldParent newParent : Name}
    (hold : fs.inodes.getPath parent = some oldParent)
    (hnew : fs.inodes.getPath newparent = some newParent)
    (hrun : (rename parent name newparent newname).run fs = .ok () fs') :
    fs.inodes.Follows fs'.inodes (joinPath oldParent name) (joinPath newParent newname) ↔
      fs.inodes.CarriesAll (joinPath oldParent name) (joinPath newParent newname) := by
  obtain ⟨-, oldParent', newParent', mount, hold', hnew', hmv, rfl⟩ := rename_eq_ok hrun
  cases hold.symm.trans hold'
  cases hnew.symm.trans hnew'
  have hne : joinPath oldParent name ≠ joinPath newParent newname := by
    intro heq
    exact mv_ne hmv (congrArg Path.parse heq)
  have hroot := head?_joinPath (fs.inodes.rooted _ _ hold) name
  exact ⟨InodeTable.CarriesAll.of_follows hne hroot, InodeTable.CarriesAll.follows hne hroot⟩

end Fuse

end

namespace Reference

open Fuse

/-- A new bucket, mounted. -/
def freshFs : FuseFs := ⟨freshMount, ⟨1⟩, InodeTable.new, KeyedMap.empty, FileCache.empty,
  none, false, 1⟩

/-- The directory `/d` with the file `/d/f`, which the kernel knows as 2 and 3. -/
def directoryFs : FuseFs :=
  ((do
    let directory ← Fuse.mkdir 0 1 "d".toList
    discard (create 0 directory "f".toList) : FuseM Unit).run freshFs).state

/-- The file `/f`, which the kernel knows as 2. -/
def fileFs : FuseFs := ((discard (create 0 1 "f".toList) : FuseM Unit).run freshFs).state

/-- The file is now `/e/f`, but its inode keeps the path `/d/f`. -/
theorem directory_not_followed : ∃ fs',
    (Fuse.rename 1 "d".toList 1 "e".toList).run directoryFs = .ok () fs' ∧
    fs'.inodes.getPath 3 = some "/d/f".toList ∧
    ¬ directoryFs.inodes.Follows fs'.inodes "/d".toList "/e".toList := by
  have hrun : ((Fuse.rename 1 "d".toList 1 "e".toList).run directoryFs).okAnd (fun fs' =>
      decide (directoryFs.inodes.getPath 3 = some "/d/f".toList ∧
        fs'.inodes.getPath 3 = some "/d/f".toList)) = true := by
    decide +kernel
  obtain ⟨_, fs', hrun, htest⟩ := EStateM.Result.exists_of_okAnd hrun
  obtain ⟨hbefore, hafter⟩ := of_decide_eq_true htest
  refine ⟨fs', hrun, hafter, ?_⟩
  intro hfollows
  have hpath := hfollows 3
  rw [hbefore, hafter] at hpath
  exact absurd hpath (by decide +kernel)

/-- The one inode of a file goes with it. -/
theorem file_followed : ∃ fs',
    (Fuse.rename 1 "f".toList 1 "g".toList).run fileFs = .ok () fs' ∧
    (fileFs.inodes.Follows fs'.inodes (joinPath ['/'] "f".toList) (joinPath ['/'] "g".toList) ↔
      fileFs.inodes.CarriesAll (joinPath ['/'] "f".toList) (joinPath ['/'] "g".toList)) := by
  have hrun : ((Fuse.rename 1 "f".toList 1 "g".toList).run fileFs).okAnd (fun _ =>
      decide (fileFs.inodes.getPath 1 = some ['/'])) = true := by
    decide +kernel
  obtain ⟨_, fs', hrun, htest⟩ := EStateM.Result.exists_of_okAnd hrun
  have hroot := of_decide_eq_true htest
  exact ⟨fs', hrun, inodesFollow_iff hroot hroot hrun⟩

end Reference

end JaxFs

import JaxFs.KeyedMap
import JaxFs.PathStrings

/-!
# The inode table

`fuse/inode_table.rs`: the numbers the kernel holds and the path string of each.  A path
that is renamed onto or created again leaves older numbers with the same path behind, so
the two maps agree in one direction only.  The counter is an `AtomicU64` in the source and
a natural number here.
-/

namespace JaxFs

structure InodeTable where
  pathToInode : FinMap Name ℕ
  inodeToPath : FinMap ℕ Name
  nextInode : ℕ
  agree : ∀ path inode, pathToInode.get? path = some inode →
    inodeToPath.get? inode = some path
  below : ∀ inode path, inodeToPath.get? inode = some path → inode < nextInode
  rooted : ∀ inode path, inodeToPath.get? inode = some path → path.head? = some '/'

namespace InodeTable

def rootInode : ℕ := 1

def new : InodeTable where
  pathToInode := FinMap.put KeyedMap.empty ['/'] rootInode
  inodeToPath := FinMap.put KeyedMap.empty rootInode ['/']
  nextInode := 2
  agree := by
    intro path inode hpath
    rw [FinMap.get?_put] at hpath ⊢
    split_ifs at hpath with heq
    · cases hpath
      simp [heq]
    · simp at hpath
  below := by
    intro inode path hinode
    rw [FinMap.get?_put] at hinode
    split_ifs at hinode with heq
    · rw [← heq]
      decide
    · simp at hinode
  rooted := by
    intro inode path hinode
    rw [FinMap.get?_put] at hinode
    split_ifs at hinode with heq
    · cases hinode
      rfl
    · simp at hinode

variable (table : InodeTable)

def getInode (path : Name) : Option ℕ := table.pathToInode.get? (normalizePath path)

def getPath (inode : ℕ) : Option Name := table.inodeToPath.get? inode

def getOrCreate (path : Name) : ℕ × InodeTable :=
  match table.pathToInode.get? (normalizePath path) with
  | some inode => (inode, table)
  | none =>
      (table.nextInode,
        { pathToInode := table.pathToInode.put (normalizePath path) table.nextInode
          inodeToPath := table.inodeToPath.put table.nextInode (normalizePath path)
          nextInode := table.nextInode + 1
          agree := by
            intro other inode hother
            rw [FinMap.get?_put] at hother ⊢
            split_ifs at hother with heq
            · cases hother
              rw [if_pos rfl, heq]
            · have hinode := table.agree other inode hother
              rw [if_neg (table.below inode other hinode).ne', hinode]
          below := by
            intro inode other hinode
            rw [FinMap.get?_put] at hinode
            split_ifs at hinode with heq
            · exact heq ▸ Nat.lt_succ_self _
            · exact (table.below inode other hinode).trans (Nat.lt_succ_self _)
          rooted := by
            intro inode other hinode
            rw [FinMap.get?_put] at hinode
            split_ifs at hinode with heq
            · cases hinode
              exact head?_normalizePath path
            · exact table.rooted inode other hinode })

def removeByPath (path : Name) : Option ℕ × InodeTable :=
  match hold : table.pathToInode.get? (normalizePath path) with
  | some inode =>
      (some inode,
        { pathToInode := table.pathToInode.erase (normalizePath path)
          inodeToPath := table.inodeToPath.erase inode
          nextInode := table.nextInode
          agree := by
            intro other inode' hother
            rw [FinMap.get?_erase] at hother ⊢
            split_ifs at hother with heq
            have hinode := table.agree other inode' hother
            rw [if_neg, hinode]
            rintro rfl
            rw [table.agree _ _ hold] at hinode
            exact heq (Option.some.inj hinode)
          below := by
            intro inode' other hinode
            rw [FinMap.get?_erase] at hinode
            split_ifs at hinode
            exact table.below inode' other hinode
          rooted := by
            intro inode' other hinode
            rw [FinMap.get?_erase] at hinode
            split_ifs at hinode
            exact table.rooted inode' other hinode })
  | none => (none, table)

/-- `rename`: only the inode registered for the old path gets the new one. -/
def rename (oldPath newPath : Name) : Option ℕ × InodeTable :=
  match hold : table.pathToInode.get? (normalizePath oldPath) with
  | some inode =>
      (some inode,
        { pathToInode := FinMap.put (table.pathToInode.erase (normalizePath oldPath))
            (normalizePath newPath) inode
          inodeToPath := table.inodeToPath.put inode (normalizePath newPath)
          nextInode := table.nextInode
          agree := by
            intro other inode' hother
            rw [FinMap.get?_put] at hother ⊢
            split_ifs at hother with hnew
            · cases hother
              rw [if_pos rfl, hnew]
            · rw [FinMap.get?_erase] at hother
              split_ifs at hother with heq
              have hinode := table.agree other inode' hother
              rw [if_neg, hinode]
              rintro rfl
              rw [table.agree _ _ hold] at hinode
              exact heq (Option.some.inj hinode)
          below := by
            intro inode' other hinode
            rw [FinMap.get?_put] at hinode
            split_ifs at hinode with heq
            · rw [← heq]
              exact table.below _ _ (table.agree _ _ hold)
            · exact table.below inode' other hinode
          rooted := by
            intro inode' other hinode
            rw [FinMap.get?_put] at hinode
            split_ifs at hinode with heq
            · cases hinode
              exact head?_normalizePath newPath
            · exact table.rooted inode' other hinode })
  | none => (none, table)

/-- `remove`: the number and the path that it has. -/
def remove (inode : ℕ) : Option Name × InodeTable :=
  match hold : table.inodeToPath.get? inode with
  | some path =>
      (some path,
        { pathToInode := table.pathToInode.erase path
          inodeToPath := table.inodeToPath.erase inode
          nextInode := table.nextInode
          agree := by
            intro other inode' hother
            rw [FinMap.get?_erase] at hother ⊢
            split_ifs at hother with heq
            have hinode := table.agree other inode' hother
            rw [if_neg, hinode]
            rintro rfl
            rw [hold] at hinode
            exact heq (Option.some.inj hinode)
          below := by
            intro inode' other hinode
            rw [FinMap.get?_erase] at hinode
            split_ifs at hinode
            exact table.below inode' other hinode
          rooted := by
            intro inode' other hinode
            rw [FinMap.get?_erase] at hinode
            split_ifs at hinode
            exact table.rooted inode' other hinode })
  | none => (none, table)

/-- `clear`: whatever the table holds, only the root is left. -/
def clear (_table : InodeTable) : InodeTable := new

variable {table} in
theorem getPath_of_getInode {path : Name} {inode : ℕ} (h : table.getInode path = some inode) :
    table.getPath inode = some (normalizePath path) :=
  table.agree _ _ h

theorem getPath_getOrCreate (path : Name) :
    (table.getOrCreate path).2.getPath (table.getOrCreate path).1 =
      some (normalizePath path) := by
  unfold getOrCreate getPath
  split
  next inode hold => exact table.agree _ _ hold
  next => simp

end InodeTable

end JaxFs

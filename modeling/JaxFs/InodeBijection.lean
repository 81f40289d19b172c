import JaxFs.InodeTable
import JaxFs.Runs

/-!
# The inode table as a bijection

The table is documented as a bidirectional mapping.  Every call keeps the two maps inverse
to each other except `rename` onto a path that has a number of its own: that number keeps
the path it has lost.
-/

namespace JaxFs

inductive InodeCall where
  | getOrCreate (path : Name)
  | remove (inode : ℕ)
  | removeByPath (path : Name)
  | rename (oldPath newPath : Name)
  | clear

namespace InodeTable

/-- Each number has the path that is registered for it, and the other way round. -/
def Inverse (table : InodeTable) : Prop :=
  ∀ inode path, table.getPath inode = some path ↔ table.pathToInode.get? path = some inode

theorem inverse_new : InodeTable.new.Inverse := by
  intro inode path
  simp only [getPath, InodeTable.new, FinMap.get?_put, FinMap.get?_empty]
  split_ifs <;> simp_all [eq_comm]

section

variable {table : InodeTable}

theorem Inverse.getOrCreate (h : table.Inverse) (path : Name) :
    (table.getOrCreate path).2.Inverse := by
  unfold InodeTable.getOrCreate
  cases hold : table.pathToInode.get? (normalizePath path) with
  | some inode => exact h
  | none =>
      intro inode other
      simp only [getPath, FinMap.get?_put]
      by_cases hinode : table.nextInode = inode
      · have hfresh : table.pathToInode.get? other ≠ some inode := by
          intro hother
          have hlt := table.below _ _ (table.agree _ _ hother)
          omega
        by_cases hpath : normalizePath path = other
        · simp [hinode, hpath]
        · simp [hinode, hpath, hfresh]
      · by_cases hpath : normalizePath path = other
        · subst hpath
          have hunused := h inode (normalizePath path)
          simp only [getPath, hold] at hunused
          simp [hinode, hunused]
        · simpa [hinode, hpath, getPath] using h inode other

/-- Erasing a number and its path from both maps leaves the others alone. -/
theorem inverse_erase_iff {inode inode' : ℕ} {path other : Name} (h : table.Inverse)
    (hold : table.getPath inode = some path) :
    FinMap.get? (table.inodeToPath.erase inode) inode' = some other ↔
      FinMap.get? (table.pathToInode.erase path) other = some inode' := by
  rw [FinMap.get?_erase, FinMap.get?_erase]
  by_cases hinode : inode = inode'
  · subst hinode
    by_cases hpath : path = other
    · simp [hpath]
    · have hother : table.pathToInode.get? other ≠ some inode := by
        intro hother
        have hsame := (h inode other).mpr hother
        rw [hold] at hsame
        exact hpath (Option.some.inj hsame)
      simp [hpath, hother]
  · by_cases hpath : path = other
    · subst hpath
      have hsame := (h inode path).mp hold
      have hother : table.inodeToPath.get? inode' ≠ some path := by
        intro hother
        have hboth := (h inode' path).mp hother
        rw [hsame] at hboth
        exact hinode (Option.some.inj hboth)
      simp [hinode, hother]
    · simpa [hinode, hpath, getPath] using h inode' other

theorem Inverse.remove (h : table.Inverse) (inode : ℕ) : (table.remove inode).2.Inverse := by
  unfold InodeTable.remove
  split
  next path hold =>
    intro inode' other
    exact inverse_erase_iff h hold
  next => exact h

theorem Inverse.removeByPath (h : table.Inverse) (path : Name) :
    (table.removeByPath path).2.Inverse := by
  unfold InodeTable.removeByPath
  split
  next inode hold =>
    intro inode' other
    exact inverse_erase_iff h (table.agree _ _ hold)
  next => exact h

theorem Inverse.eq_of_getPath {inode inode' : ℕ} {path : Name} (h : table.Inverse)
    (hinode : table.getPath inode = some path) (hinode' : table.getPath inode' = some path) :
    inode = inode' := by
  rw [h] at hinode hinode'
  exact Option.some.inj (hinode.symm.trans hinode')

/-- `rename` keeps the maps inverse exactly when no other number has the new path. -/
theorem inverse_rename_iff (h : table.Inverse) (oldPath newPath : Name) :
    (table.rename oldPath newPath).2.Inverse ↔
      table.getInode oldPath = none ∨ normalizePath oldPath = normalizePath newPath ∨
        table.getInode newPath = none := by
  unfold InodeTable.rename getInode
  split
  next inode hold =>
    have hinode : table.getPath inode = some (normalizePath oldPath) := table.agree _ _ hold
    simp only [hold, Inverse, getPath]
    generalize normalizePath oldPath = old at hold hinode ⊢
    generalize normalizePath newPath = new
    constructor
    · intro hinverse
      by_contra hor
      simp only [reduceCtorEq, false_or, not_or] at hor
      obtain ⟨other, hother⟩ := Option.ne_none_iff_exists'.mp hor.2
      have hpath : table.getPath other = some new := table.agree _ _ hother
      have hne : inode ≠ other := by
        rintro rfl
        rw [hinode] at hpath
        exact hor.1 (Option.some.inj hpath)
      have hafter := (hinverse other new).mp (by
        simpa [getPath, FinMap.get?_put, hne] using hpath)
      simp [hne] at hafter
    · intro hfree inode' path
      simp only [FinMap.get?_put, FinMap.get?_erase]
      by_cases hsame : inode = inode'
      · subst hsame
        by_cases hnew : new = path
        · simp [hnew]
        · by_cases hpath : old = path
          · simp [hnew, hpath]
          · have hother : table.pathToInode.get? path ≠ some inode := by
              intro hother
              have hboth := (h inode path).mpr hother
              rw [hinode] at hboth
              exact hpath (Option.some.inj hboth)
            simp [hnew, hpath, hother]
      · by_cases hpath : old = path
        · have hother : table.inodeToPath.get? inode' ≠ some path := by
            intro hother
            rw [hpath] at hinode
            exact hsame (h.eq_of_getPath hinode hother)
          simp [hsame, hpath, hother]
        · by_cases hnew : new = path
          · have hother : table.inodeToPath.get? inode' ≠ some path := by
              intro hother
              rw [← hnew] at hpath hother
              have hboth := (h inode' new).mp hother
              simp [hpath, hboth] at hfree
            simp [hsame, hnew, hother]
          · simpa [hsame, hpath, hnew, getPath] using h inode' path
  next hold => simpa [hold] using h

end

end InodeTable

/-! ## Runs -/

/-- A table and the numbers that it has handed out since it was last cleared. -/
structure InodeLedger where
  table : InodeTable
  handedOut : List ℕ

namespace InodeLedger

def new : InodeLedger := ⟨InodeTable.new, [InodeTable.rootInode]⟩

/-- A call, with the number it hands out if that is a new one. -/
def after (ledger : InodeLedger) : InodeCall → InodeLedger
  | .getOrCreate path =>
      ⟨(ledger.table.getOrCreate path).2,
        match ledger.table.getInode path with
        | some _ => ledger.handedOut
        | none => ledger.handedOut ++ [(ledger.table.getOrCreate path).1]⟩
  | .remove inode => { ledger with table := (ledger.table.remove inode).2 }
  | .removeByPath path => { ledger with table := (ledger.table.removeByPath path).2 }
  | .rename oldPath newPath => { ledger with table := (ledger.table.rename oldPath newPath).2 }
  | .clear => ⟨ledger.table.clear, [InodeTable.rootInode]⟩

/-- The maps are inverse, no number has been handed out twice, and those handed out, as
those in use, are below the counter, which has not wrapped around. -/
structure Bijective (ledger : InodeLedger) : Prop where
  inverse : ledger.table.Inverse
  distinct : ledger.handedOut.Nodup
  handedOut_lt : ∀ inode ∈ ledger.handedOut, inode < ledger.table.nextInode
  inUse_lt : ∀ inode path, ledger.table.getPath inode = some path →
    inode < ledger.table.nextInode
  counter_lt : ledger.table.nextInode < 2 ^ 64

/-- A new number leaves room in the counter, and a renamed entry gets a path that no other
entry has. -/
def Apart (ledger : InodeLedger) : InodeCall → Prop
  | .getOrCreate path =>
      ledger.table.getInode path = none → ledger.table.nextInode + 1 < 2 ^ 64
  | .rename oldPath newPath =>
      ledger.table.getInode oldPath = none ∨ normalizePath oldPath = normalizePath newPath ∨
        ledger.table.getInode newPath = none
  | _ => True

theorem bijective_new : new.Bijective where
  inverse := InodeTable.inverse_new
  distinct := List.nodup_singleton _
  handedOut_lt := by simp [new, InodeTable.new, InodeTable.rootInode]
  inUse_lt := InodeTable.new.below
  counter_lt := by simp [new, InodeTable.new]

section

variable {ledger : InodeLedger}

theorem Bijective.getOrCreate (h : ledger.Bijective) {path : Name}
    (hroom : ledger.Apart (.getOrCreate path)) :
    (ledger.after (.getOrCreate path)).Bijective := by
  have hinverse := h.inverse.getOrCreate path
  have hbelow := (ledger.table.getOrCreate path).2.below
  cases hold : ledger.table.getInode path with
  | some inode =>
      have hsame : (ledger.table.getOrCreate path).2 = ledger.table := by
        unfold InodeTable.getInode at hold
        simp [InodeTable.getOrCreate, hold]
      simpa [InodeLedger.after, hold, hsame] using h
  | none =>
      have hnext : (ledger.table.getOrCreate path).1 = ledger.table.nextInode ∧
          (ledger.table.getOrCreate path).2.nextInode = ledger.table.nextInode + 1 := by
        unfold InodeTable.getInode at hold
        unfold InodeTable.getOrCreate
        split
        next hfound =>
          rw [hold] at hfound
          contradiction
        next => exact ⟨rfl, rfl⟩
      simp only [InodeLedger.after, hold]
      constructor
      · exact hinverse
      · have hfresh : ledger.table.nextInode ∉ ledger.handedOut := by
          intro hmem
          have hlt := h.handedOut_lt _ hmem
          omega
        simp [hnext.1, List.nodup_append, h.distinct]
        intro inode hinode heq
        exact hfresh (heq ▸ hinode)
      · intro inode hinode
        simp only [List.mem_append, List.mem_singleton, hnext.1] at hinode
        rw [hnext.2]
        rcases hinode with hinode | hinode
        · have hlt := h.handedOut_lt inode hinode
          omega
        · omega
      · exact hbelow
      · rw [hnext.2]
        exact hroom hold

theorem Bijective.after (h : ledger.Bijective) (call : InodeCall) (hapart : ledger.Apart call) :
    (ledger.after call).Bijective := by
  cases call with
  | getOrCreate path => exact h.getOrCreate hapart
  | remove inode =>
      have hnext : (ledger.table.remove inode).2.nextInode = ledger.table.nextInode := by
        unfold InodeTable.remove
        split <;> rfl
      constructor
      · exact h.inverse.remove inode
      · exact h.distinct
      · simpa [InodeLedger.after, hnext] using h.handedOut_lt
      · exact (ledger.table.remove inode).2.below
      · simpa [InodeLedger.after, hnext] using h.counter_lt
  | removeByPath path =>
      have hnext : (ledger.table.removeByPath path).2.nextInode = ledger.table.nextInode := by
        unfold InodeTable.removeByPath
        split <;> rfl
      constructor
      · exact h.inverse.removeByPath path
      · exact h.distinct
      · simpa [InodeLedger.after, hnext] using h.handedOut_lt
      · exact (ledger.table.removeByPath path).2.below
      · simpa [InodeLedger.after, hnext] using h.counter_lt
  | rename oldPath newPath =>
      have hnext : (ledger.table.rename oldPath newPath).2.nextInode =
          ledger.table.nextInode := by
        unfold InodeTable.rename
        split <;> rfl
      constructor
      · exact (InodeTable.inverse_rename_iff h.inverse oldPath newPath).mpr hapart
      · exact h.distinct
      · simpa [InodeLedger.after, hnext] using h.handedOut_lt
      · exact (ledger.table.rename oldPath newPath).2.below
      · simpa [InodeLedger.after, hnext] using h.counter_lt
  | clear => exact bijective_new

end

/-- The table stays a bijection in every run that renames onto free paths only. -/
theorem bijective_of_run {calls : List InodeCall} (h : AlongRun after Apart new calls) :
    (calls.foldl after new).Bijective :=
  AlongRun.invariant (fun _ call hledger hapart => hledger.after call hapart) bijective_new h

end InodeLedger

namespace Reference

/-- `/a` and `/b` get the numbers 2 and 3, and `/a` is renamed to `/b`. -/
def renamedOnto : InodeLedger :=
  [InodeCall.getOrCreate "/a".toList, .getOrCreate "/b".toList,
    .rename "/a".toList "/b".toList].foldl InodeLedger.after InodeLedger.new

/-- Two numbers have the path `/b`, and it is registered for one of them. -/
theorem renamed_onto_not_inverse :
    renamedOnto.table.getPath 3 = some "/b".toList ∧
      renamedOnto.table.pathToInode.get? "/b".toList = some 2 ∧ ¬ renamedOnto.Bijective := by
  have hfacts : renamedOnto.table.getPath 3 = some "/b".toList ∧
      renamedOnto.table.pathToInode.get? "/b".toList = some 2 := by decide
  refine ⟨hfacts.1, hfacts.2, ?_⟩
  intro h
  have hinode := (h.inverse 3 "/b".toList).mp hfacts.1
  rw [hfacts.2] at hinode
  contradiction

/-- A rename onto a free path, and a new entry for the old one. -/
theorem renamed_apart_bijective :
    ([InodeCall.getOrCreate "/a".toList, .rename "/a".toList "/b".toList,
      .getOrCreate "/a".toList].foldl InodeLedger.after InodeLedger.new).Bijective := by
  apply InodeLedger.bijective_of_run
  simp only [AlongRun, InodeLedger.Apart]
  decide

end Reference

end JaxFs

import Mathlib.Data.Set.Finite.Basic
import Mathlib.Tactic

/-!
# File trees

A branch is a finite set of paths of names, each of which leads to a directory or to a
file with its contents; what something lies below is a directory.  A file tree is a
branch with a directory at its root.  The operations on file trees put a branch in a
place or take one away, and say nothing about how a tree is stored.
-/

/-- What a path leads to. -/
inductive TreeEntry (β : Type*) where
  | dir
  | file (contents : β)

def TreeEntry.isDir {β : Type*} : TreeEntry β → Bool
  | .dir => true
  | .file _ => false

structure TreeBranch (ν β : Type*) where
  entry : List ν → Option (TreeEntry β)
  closed : ∀ path name found, entry (path ++ [name]) = some found → entry path = some .dir
  finite : {path | entry path ≠ none}.Finite

structure FileTree (ν β : Type*) extends TreeBranch ν β where
  root : entry [] = some .dir

variable {ν β : Type*}

namespace TreeBranch

/-- One entry with nothing below it. -/
def leaf (found : TreeEntry β) : TreeBranch ν β where
  entry
    | [] => some found
    | _ :: _ => none
  closed := by
    intro path name other hother
    cases path <;> contradiction
  finite := by
    apply (Set.finite_singleton ([] : List ν)).subset
    intro path hpath
    cases path with
    | nil => rfl
    | cons first rest => exact absurd rfl hpath

/-- What lies at and below a path. -/
def below (branch : TreeBranch ν β) (path : List ν) : TreeBranch ν β where
  entry rest := branch.entry (path ++ rest)
  closed := by
    intro rest name found hfound
    rw [← List.append_assoc] at hfound
    exact branch.closed _ _ _ hfound
  finite := branch.finite.preimage (List.append_right_injective path).injOn

end TreeBranch

namespace FileTree

/-- A directory with nothing in it. -/
def empty : FileTree ν β := { TreeBranch.leaf .dir with root := rfl }

theorem ne_nil_of_eq_none (tree : FileTree ν β) {path : List ν} (h : tree.entry path = none) :
    path ≠ [] := by
  rintro rfl
  rw [tree.root] at h
  contradiction

/-- No file is in the way of an entry at the path. -/
def Clear (tree : FileTree ν β) (path : List ν) : Prop :=
  ∀ above, above <+: path → above ≠ path → ∀ contents, tree.entry above ≠ some (.file contents)

section

variable [DecidableEq ν]

/-- A branch in the place of what is at the path, with directories on the way to it. -/
def graft (tree : FileTree ν β) (path : List ν) (branch : TreeBranch ν β) (hpath : path ≠ []) :
    FileTree ν β where
  entry place :=
    if path <+: place then branch.entry (place.drop path.length)
    else if place <+: path then some .dir
    else tree.entry place
  closed := by
    intro place name found hfound
    by_cases hbelow : path <+: place
    · have hlonger : path <+: place ++ [name] := hbelow.trans (List.prefix_append _ _)
      have hlength := hbelow.length_le
      rw [if_pos hlonger, List.drop_append_of_le_length hlength] at hfound
      rw [if_pos hbelow]
      exact branch.closed _ _ _ hfound
    · rw [if_neg hbelow]
      by_cases habove : place <+: path
      · rw [if_pos habove]
      · have hnotBelow : ¬ path <+: place ++ [name] := by
          intro hpre
          rcases List.prefix_concat_iff.mp (by simpa using hpre) with heq | hproper
          · apply habove
            rw [heq]
            exact ⟨[name], by simp⟩
          · exact hbelow hproper
        have hnotAbove : ¬ place ++ [name] <+: path := fun hpre =>
          habove ((List.prefix_append _ _).trans hpre)
        rw [if_neg hnotBelow, if_neg hnotAbove] at hfound
        rw [if_neg habove]
        exact tree.closed _ _ _ hfound
  finite := by
    have hbranch := (branch.finite.image (path ++ ·)).union
      ((List.finite_toSet path.inits).union tree.finite)
    apply hbranch.subset
    intro place hplace
    by_cases hbelow : path <+: place
    · left
      obtain ⟨rest, rfl⟩ := hbelow
      refine ⟨rest, ?_, rfl⟩
      simpa using hplace
    · right
      by_cases habove : place <+: path
      · left
        simpa using habove
      · right
        simpa [hbelow, habove] using hplace
  root := by
    have hbelow : ¬ path <+: [] := fun hpre => hpath (List.prefix_nil.mp hpre)
    rw [if_neg hbelow, if_pos List.nil_prefix]

/-- The tree without what is at and below the path. -/
def erase (tree : FileTree ν β) (path : List ν) (hpath : path ≠ []) : FileTree ν β where
  entry place := if path <+: place then none else tree.entry place
  closed := by
    intro place name found hfound
    split_ifs at hfound with hlonger
    have hbelow : ¬ path <+: place := fun hpre =>
      hlonger (hpre.trans (List.prefix_append _ _))
    rw [if_neg hbelow]
    exact tree.closed _ _ _ hfound
  finite := by
    apply tree.finite.subset
    intro place hplace hnone
    apply hplace
    simp [hnone]
  root := by
    rw [if_neg (fun hpre => hpath (List.prefix_nil.mp hpre))]
    exact tree.root

/-- Outside what was taken away the way to a path is as clear as before. -/
theorem clear_erase_iff {tree : FileTree ν β} {path target : List ν} (hpath : path ≠ [])
    (houtside : ¬ path <+: target) :
    (tree.erase path hpath).Clear target ↔ tree.Clear target := by
  have hentry : ∀ above, above <+: target →
      (tree.erase path hpath).entry above = tree.entry above := by
    intro above hpre
    exact if_neg (fun hbelow => houtside (hbelow.trans hpre))
  unfold FileTree.Clear
  constructor
  · intro hclear above hpre hne contents
    rw [← hentry above hpre]
    exact hclear above hpre hne contents
  · intro hclear above hpre hne contents
    rw [hentry above hpre]
    exact hclear above hpre hne contents

end

/-! ## What a change leaves alone -/

/-- What is at the path is still there. -/
def Keeps (tree tree' : FileTree ν β) (path : List ν) : Prop :=
  ∀ found, tree.entry path = some found → tree'.entry path = some found

/-- A directory still shows the same names, but for hidden ones, and of the same kinds. -/
def KeepsNames (hidden : ν → Prop) (tree tree' : FileTree ν β) (path : List ν) : Prop :=
  tree.entry path = some .dir → tree'.entry path = some .dir ∧
    ∀ name, ¬ hidden name → (tree'.entry (path ++ [name])).map TreeEntry.isDir =
      (tree.entry (path ++ [name])).map TreeEntry.isDir

theorem Keeps.trans {tree tree' tree'' : FileTree ν β} {path : List ν}
    (h : Keeps tree tree' path) (h' : Keeps tree' tree'' path) : Keeps tree tree'' path :=
  fun found hfound => h' found (h found hfound)

theorem KeepsNames.trans {hidden : ν → Prop} {tree tree' tree'' : FileTree ν β}
    {path : List ν} (h : KeepsNames hidden tree tree' path)
    (h' : KeepsNames hidden tree' tree'' path) : KeepsNames hidden tree tree'' path := by
  intro hdir
  obtain ⟨hdir', hnames⟩ := h hdir
  obtain ⟨hdir'', hnames'⟩ := h' hdir'
  exact ⟨hdir'', fun name hname => (hnames' name hname).trans (hnames name hname)⟩

/-- What something lies strictly below is a directory. -/
theorem entry_above (tree : FileTree ν β) {above path : List ν} {found : TreeEntry β}
    (hfound : tree.entry path = some found) (hpre : above <+: path) (hne : above ≠ path) :
    tree.entry above = some .dir := by
  induction path using List.reverseRecOn generalizing found with
  | nil => exact absurd (List.prefix_nil.mp hpre) hne
  | append_singleton init last ih =>
      have hinit := tree.closed _ _ _ hfound
      rcases List.prefix_concat_iff.mp (by simpa using hpre) with heq | hproper
      · exact absurd (by simpa using heq) hne
      · by_cases hsame : above = init
        · rw [hsame, hinit]
        · exact ih hinit hproper hsame

section

variable [DecidableEq ν] {tree : FileTree ν β} {path place : List ν} (hpath : path ≠ [])
  {branch : TreeBranch ν β}

theorem graft_keeps (hclear : tree.Clear path) (hfile : tree.entry path ≠ some .dir)
    (hplace : place = path → tree.entry path = none) :
    Keeps tree (tree.graft path branch hpath) place := by
  intro found hfound
  have hne : place ≠ path := by
    intro heq
    rw [heq, hplace heq] at hfound
    contradiction
  have hbelow : ¬ path <+: place := fun hpre =>
    hfile (tree.entry_above hfound hpre hne.symm)
  simp only [graft, if_neg hbelow]
  split_ifs with habove
  · cases found with
    | dir => rfl
    | file contents => exact absurd hfound (hclear place habove hne contents)
  · exact hfound

/-- A directory shows the same names when the next one on the way to the path was there
already, as a file if it is the path. -/
theorem graft_keepsNames {hidden : ν → Prop} (hclear : tree.Clear path)
    (hfile : tree.entry path ≠ some .dir)
    (hbranch : tree.entry path ≠ none → ∃ contents, branch.entry [] = some (.file contents))
    (hshown : ∀ name, place ++ [name] <+: path → hidden name ∨
      tree.entry (place ++ [name]) ≠ none) :
    KeepsNames hidden tree (tree.graft path branch hpath) place := by
  intro hdir
  refine ⟨graft_keeps hpath hclear hfile (fun heq => absurd (heq ▸ hdir) hfile) _ hdir, ?_⟩
  intro name hname
  by_cases hbelow : path <+: place ++ [name]
  · have heq : path = place ++ [name] := by
      rcases List.prefix_concat_iff.mp (by simpa using hbelow) with heq | hproper
      · simpa using heq
      · by_cases hsame : path = place
        · exact absurd (hsame ▸ hdir) hfile
        · exact absurd (tree.entry_above hdir hproper hsame) hfile
    have hsome := (hshown name (heq ▸ List.prefix_rfl)).resolve_left hname
    rw [← heq] at hsome ⊢
    obtain ⟨contents, hcontents⟩ := hbranch hsome
    cases hfound : tree.entry path with
    | none => contradiction
    | some found =>
        cases found with
        | dir => contradiction
        | file old => simp [graft, hcontents, TreeEntry.isDir]
  · simp only [graft, if_neg hbelow]
    split_ifs with habove
    · have hsome := (hshown name habove).resolve_left hname
      cases hfound : tree.entry (place ++ [name]) with
      | none => contradiction
      | some found =>
          cases found with
          | dir => rfl
          | file contents =>
              have hne : place ++ [name] ≠ path := by
                rintro rfl
                exact hbelow List.prefix_rfl
              exact absurd hfound (hclear _ habove hne contents)
    · rfl

theorem erase_keeps (hplace : ¬ path <+: place) : Keeps tree (tree.erase path hpath) place := by
  intro found hfound
  simp only [erase, if_neg hplace]
  exact hfound

theorem erase_keepsNames {hidden : ν → Prop} (hplace : ¬ path <+: place)
    (hparent : ∀ name, place ++ [name] ≠ path) :
    KeepsNames hidden tree (tree.erase path hpath) place := by
  intro hdir
  refine ⟨erase_keeps hpath hplace _ hdir, ?_⟩
  intro name _
  have hchild : ¬ path <+: place ++ [name] := by
    intro hpre
    rcases List.prefix_concat_iff.mp (by simpa using hpre) with heq | hproper
    · exact hparent name (by simpa using heq.symm)
    · exact hplace hproper
  simp only [erase, if_neg hchild]

end

/-! ## The operations -/

section

variable [DecidableEq ν]

open Classical in
/-- A file at the path, in the place of anything that was there. -/
noncomputable def write (tree : FileTree ν β) (path : List ν) (contents : β) :
    Option (FileTree ν β) :=
  if h : path ≠ [] ∧ tree.Clear path then some (tree.graft path (.leaf (.file contents)) h.1)
  else none

open Classical in
/-- A directory where there is nothing. -/
noncomputable def mkdir (tree : FileTree ν β) (path : List ν) : Option (FileTree ν β) :=
  if h : tree.entry path = none ∧ tree.Clear path then
    some (tree.graft path (.leaf .dir) (tree.ne_nil_of_eq_none h.1))
  else none

open Classical in
/-- What is at the path goes, with everything below it. -/
noncomputable def remove (tree : FileTree ν β) (path : List ν) : Option (FileTree ν β) :=
  if h : path ≠ [] ∧ tree.entry path ≠ none then some (tree.erase path h.1) else none

/-- The source is there, and the target is free and not below it. -/
structure Movable (tree : FileTree ν β) (source target : List ν) : Prop where
  outside : ¬ source <+: target
  found : tree.entry source ≠ none
  free : tree.entry target = none

omit [DecidableEq ν] in
theorem Movable.source_ne_nil {tree : FileTree ν β} {source target : List ν}
    (h : tree.Movable source target) : source ≠ [] := by
  rintro rfl
  exact h.outside List.nil_prefix

open Classical in
/-- The whole branch at the source goes to the target. -/
noncomputable def move (tree : FileTree ν β) (source target : List ν) :
    Option (FileTree ν β) :=
  if h : tree.Movable source target ∧ tree.Clear target then
    some ((tree.erase source h.1.source_ne_nil).graft target (tree.below source)
      (tree.ne_nil_of_eq_none h.1.free))
  else none

variable {tree : FileTree ν β} {path : List ν}

theorem write_of_clear {contents : β} (hpath : path ≠ []) (hclear : tree.Clear path) :
    tree.write path contents = some (tree.graft path (.leaf (.file contents)) hpath) :=
  dif_pos ⟨hpath, hclear⟩

theorem write_eq_none {contents : β} (h : ¬ (path ≠ [] ∧ tree.Clear path)) :
    tree.write path contents = none :=
  dif_neg h

theorem mkdir_of_clear (hfree : tree.entry path = none) (hclear : tree.Clear path) :
    tree.mkdir path = some (tree.graft path (.leaf .dir) (tree.ne_nil_of_eq_none hfree)) :=
  dif_pos ⟨hfree, hclear⟩

theorem mkdir_eq_none (h : ¬ (tree.entry path = none ∧ tree.Clear path)) :
    tree.mkdir path = none :=
  dif_neg h

theorem remove_of_found (hpath : path ≠ []) (hfound : tree.entry path ≠ none) :
    tree.remove path = some (tree.erase path hpath) :=
  dif_pos ⟨hpath, hfound⟩

theorem remove_eq_none (h : ¬ (path ≠ [] ∧ tree.entry path ≠ none)) :
    tree.remove path = none :=
  dif_neg h

variable {source target : List ν}

theorem move_of_clear (hmovable : tree.Movable source target) (hclear : tree.Clear target) :
    tree.move source target = some ((tree.erase source hmovable.source_ne_nil).graft target
      (tree.below source) (tree.ne_nil_of_eq_none hmovable.free)) :=
  dif_pos ⟨hmovable, hclear⟩

theorem move_eq_none (h : ¬ (tree.Movable source target ∧ tree.Clear target)) :
    tree.move source target = none :=
  dif_neg h

end

end FileTree

import JaxFs.FileTree

/-!
# Copies over a file tree

A local file system takes two calls: one makes a directory with all that is above it, and
one writes a file into a directory.  Neither takes anything away or makes a file of a
directory.  Calls that follow a plan lay it over what was there.  They succeed exactly when
no path is a file on one side and a directory on the other.
-/

namespace FileTree

variable {ν β : Type*}

/-! ## The two calls -/

section

variable [DecidableEq ν]

def isDirAt (tree : FileTree ν β) (path : List ν) : Bool :=
  match tree.entry path with
  | some .dir => true
  | _ => false

def isFileAt (tree : FileTree ν β) (path : List ν) : Bool :=
  match tree.entry path with
  | some (.file _) => true
  | _ => false

omit [DecidableEq ν] in
theorem isDirAt_iff {tree : FileTree ν β} {path : List ν} :
    tree.isDirAt path = true ↔ tree.entry path = some .dir := by
  unfold isDirAt
  cases tree.entry path with
  | none => simp
  | some found => cases found <;> simp

omit [DecidableEq ν] in
theorem isFileAt_iff {tree : FileTree ν β} {path : List ν} :
    tree.isFileAt path = true ↔ ∃ contents, tree.entry path = some (.file contents) := by
  unfold isFileAt
  cases tree.entry path with
  | none => simp
  | some found => cases found <;> simp

/-- The directory with all that is above it; no part of the path may be a file. -/
def createDirAll (tree : FileTree ν β) (path : List ν) : Option (FileTree ν β) :=
  if path.inits.any tree.isFileAt then none
  else if h : tree.entry path = none then
    some (tree.graft path (.leaf .dir) (tree.ne_nil_of_eq_none h))
  else some tree

/-- The parent has to be a directory, and the path must not be one. -/
def writeFile (tree : FileTree ν β) (path : List ν) (contents : β) : Option (FileTree ν β) :=
  if h : path ≠ [] ∧ tree.isDirAt path.dropLast = true ∧ tree.isDirAt path = false then
    some (tree.graft path (.leaf (.file contents)) h.1)
  else none

end

/-- No part of the path is a file. -/
def Passable (tree : FileTree ν β) (path : List ν) : Prop :=
  ∀ above, above <+: path → ∀ contents, tree.entry above ≠ some (.file contents)

/-- Nothing is below a path that is no directory. -/
theorem entry_below_eq_none {tree : FileTree ν β} {path place : List ν}
    (h : tree.entry path ≠ some .dir) (hpre : path <+: place) (hne : path ≠ place) :
    tree.entry place = none := by
  cases hfound : tree.entry place with
  | none => rfl
  | some found => exact absurd (tree.entry_above hfound hpre hne) h

section

variable [DecidableEq ν] {tree tree' : FileTree ν β} {path place : List ν} {contents : β}

omit [DecidableEq ν] in
theorem any_isFileAt_iff : path.inits.any tree.isFileAt = false ↔ tree.Passable path := by
  simp only [List.any_eq_false, List.mem_inits, isFileAt_iff, not_exists, Passable, ne_eq]

theorem entry_createDirAll (h : tree.createDirAll path = some tree') :
    tree'.entry place = if place <+: path then some .dir else tree.entry place := by
  unfold createDirAll at h
  split at h
  · contradiction
  · rename_i hfile
    have hpassable : tree.Passable path := any_isFileAt_iff.mp (by simpa using hfile)
    split_ifs at h with hnone
    · cases h
      by_cases hbelow : path <+: place
      · by_cases hsame : place = path
        · simp [graft, hsame, TreeBranch.leaf]
        · have hnot : ¬ place <+: path := fun hpre =>
            hsame (hpre.eq_of_length_le hbelow.length_le)
          have hrest : tree.entry place = none :=
            entry_below_eq_none (by simp [hnone]) hbelow (Ne.symm hsame)
          obtain ⟨rest, rfl⟩ := hbelow
          cases rest with
          | nil => simp at hsame
          | cons first rest => simp [graft, TreeBranch.leaf, hnot, hrest]
      · simp [graft, hbelow]
    · cases h
      have hdir : tree.entry path = some .dir := by
        cases hfound : tree.entry path with
        | none => contradiction
        | some found =>
            cases found with
            | dir => rfl
            | file contents => exact absurd hfound (hpassable path List.prefix_rfl contents)
      split_ifs with habove
      · by_cases hsame : place = path
        · rw [hsame, hdir]
        · exact tree.entry_above hdir habove hsame
      · rfl

theorem createDirAll_isSome_iff :
    (∃ tree', tree.createDirAll path = some tree') ↔ tree.Passable path := by
  rw [← any_isFileAt_iff]
  unfold createDirAll
  cases path.inits.any tree.isFileAt with
  | true => simp
  | false =>
      simp only [Bool.false_eq_true, if_false, iff_true]
      split_ifs <;> simp

theorem entry_writeFile (h : tree.writeFile path contents = some tree') :
    tree'.entry place = if place = path then some (.file contents) else tree.entry place := by
  unfold writeFile at h
  split_ifs at h with hparts
  obtain ⟨hne, hparent, hfile⟩ := hparts
  rw [isDirAt_iff] at hparent
  have hnotDir : tree.entry path ≠ some .dir := by
    rw [Ne, ← isDirAt_iff, hfile]
    simp
  cases h
  by_cases hsame : place = path
  · simp [graft, hsame, TreeBranch.leaf]
  · rw [if_neg hsame]
    by_cases hbelow : path <+: place
    · have hrest := entry_below_eq_none hnotDir hbelow (Ne.symm hsame)
      obtain ⟨rest, rfl⟩ := hbelow
      cases rest with
      | nil => simp at hsame
      | cons first rest => simp [graft, TreeBranch.leaf, hrest]
    · by_cases habove : place <+: path
      · have hfront : place <+: path.dropLast := by
          rw [← List.dropLast_append_getLast hne] at habove
          rcases List.prefix_concat_iff.mp (by simpa using habove) with heq | hproper
          · rw [heq, List.dropLast_append_getLast] at hsame
            exact absurd rfl hsame
          · exact hproper
        have hdir : tree.entry place = some .dir := by
          by_cases hlast : place = path.dropLast
          · rw [hlast, hparent]
          · exact tree.entry_above hparent hfront hlast
        simp [graft, hbelow, habove, hdir]
      · simp [graft, hbelow, habove]

theorem writeFile_isSome_iff :
    (∃ tree', tree.writeFile path contents = some tree') ↔
      path ≠ [] ∧ tree.entry path.dropLast = some .dir ∧ tree.entry path ≠ some .dir := by
  have hdir : tree.isDirAt path = false ↔ tree.entry path ≠ some .dir := by
    rw [Ne, ← isDirAt_iff]
    simp
  rw [← isDirAt_iff, ← hdir]
  unfold writeFile
  split_ifs with h <;> simp [h]

end

end FileTree

/-! ## Calls -/

/-- A call of the local file system. -/
inductive TreeCall (ν β : Type*) where
  | createDirAll (path : List ν)
  | write (path : List ν) (contents : β)

variable {ν β : Type*}

/-- The path is one that the call may make. -/
def TreeCall.Makes (place : List ν) : TreeCall ν β → Prop
  | .createDirAll path => place <+: path
  | .write path _ => place = path

/-- Every file is written after its directory has been made. -/
def TreeCall.Prepared (calls : List (TreeCall ν β)) : Prop :=
  ∀ front path contents back, calls = front ++ .write path contents :: back →
    path ≠ [] ∧ .createDirAll path.dropLast ∈ front

theorem TreeCall.Prepared.append {calls more : List (TreeCall ν β)} (h : Prepared calls)
    (hmore : Prepared more) : Prepared (calls ++ more) := by
  intro front path contents back heq
  rcases List.append_eq_append_iff.mp heq with ⟨rest, hfront, hrest⟩ | ⟨rest, hcalls, hrest⟩
  · obtain ⟨hne, hparent⟩ := hmore rest path contents back hrest
    rw [hfront]
    exact ⟨hne, List.mem_append_right _ hparent⟩
  · cases rest with
    | nil =>
        obtain ⟨-, hparent⟩ := hmore [] path contents back (by simpa using hrest.symm)
        simp at hparent
    | cons call rest =>
        rw [List.cons_append, List.cons.injEq] at hrest
        apply h front path contents rest
        rw [hcalls, hrest.1]

theorem TreeCall.prepared_flatMap {α : Type*} {items : List α} {block : α → List (TreeCall ν β)}
    (h : ∀ item ∈ items, Prepared (block item)) : Prepared (items.flatMap block) := by
  induction items with
  | nil =>
      intro front path contents back heq
      simp at heq
  | cons item rest ih =>
      rw [List.flatMap_cons]
      exact (h item List.mem_cons_self).append
        (ih (fun other hother => h other (List.mem_cons_of_mem _ hother)))

/-- What the call makes is in the plan. -/
def TreeCall.Follows (plan : List ν → Option (TreeEntry β)) : TreeCall ν β → Prop
  | .createDirAll path => ∀ above, above <+: path → plan above = some .dir
  | .write path contents => plan path = some (.file contents)

/-- What is done of a call that fails after some steps: some of the directories are made,
or the file is opened and some of its contents are written. -/
def TreeCall.stopped {γ : Type*} : ℕ → TreeCall ν (List γ) → TreeCall ν (List γ)
  | steps, .createDirAll path => .createDirAll (path.take steps)
  | 0, .write _ _ => .createDirAll []
  | steps + 1, .write path contents => .write path (contents.take steps)

namespace FileTree

section

variable [DecidableEq ν] {tree tree' tree'' : FileTree ν β} {place : List ν}
  {call : TreeCall ν β} {calls : List (TreeCall ν β)}
  {plan : List ν → Option (TreeEntry β)}

def perform (tree : FileTree ν β) : TreeCall ν β → Option (FileTree ν β)
  | .createDirAll path => tree.createDirAll path
  | .write path contents => tree.writeFile path contents

def performAll (tree : FileTree ν β) (calls : List (TreeCall ν β)) : Option (FileTree ν β) :=
  calls.foldlM perform tree

@[simp] theorem performAll_nil : tree.performAll [] = some tree := rfl

@[simp] theorem performAll_cons :
    tree.performAll (call :: calls) = (tree.perform call).bind (performAll · calls) := rfl

theorem performAll_append (front back : List (TreeCall ν β)) :
    tree.performAll (front ++ back) = (tree.performAll front).bind (performAll · back) := by
  unfold performAll
  rw [List.foldlM_append]
  rfl

/-- A call changes only what it makes. -/
theorem entry_perform_of_not_makes (h : tree.perform call = some tree')
    (hplace : ¬ call.Makes place) : tree'.entry place = tree.entry place := by
  cases call with
  | createDirAll path => exact (entry_createDirAll h).trans (if_neg hplace)
  | write path contents => exact (entry_writeFile h).trans (if_neg hplace)

/-- Nothing goes away, and files stay files. -/
theorem isDir_perform (h : tree.perform call = some tree') {found : TreeEntry β}
    (hfound : tree.entry place = some found) :
    ∃ found', tree'.entry place = some found' ∧ found'.isDir = found.isDir := by
  cases call with
  | createDirAll path =>
      rw [entry_createDirAll h]
      split_ifs with habove
      · have hpassable := createDirAll_isSome_iff.mp ⟨tree', h⟩
        cases found with
        | dir => exact ⟨.dir, rfl, rfl⟩
        | file contents => exact absurd hfound (hpassable place habove contents)
      · exact ⟨found, hfound, rfl⟩
  | write path contents =>
      rw [entry_writeFile h]
      split_ifs with hsame
      · have hparts := writeFile_isSome_iff.mp ⟨tree', h⟩
        cases found with
        | dir => exact absurd (hsame ▸ hfound) hparts.2.2
        | file old => exact ⟨.file contents, rfl, rfl⟩
      · exact ⟨found, hfound, rfl⟩

theorem isDir_performAll (h : tree.performAll calls = some tree') {found : TreeEntry β}
    (hfound : tree.entry place = some found) :
    ∃ found', tree'.entry place = some found' ∧ found'.isDir = found.isDir := by
  induction calls generalizing tree found with
  | nil =>
      cases h
      exact ⟨found, hfound, rfl⟩
  | cons call rest ih =>
      obtain ⟨mid, hmid, hrest⟩ := Option.bind_eq_some_iff.mp h
      obtain ⟨between, hbetween, hkind⟩ := isDir_perform hmid hfound
      obtain ⟨last, hlast, hkind'⟩ := ih hrest hbetween
      exact ⟨last, hlast, hkind'.trans hkind⟩

/-! ## Plans -/

/-- No path is a directory on one side and a file on the other. -/
def Fits (tree : FileTree ν β) (plan : List ν → Option (TreeEntry β)) : Prop :=
  ∀ path found wanted, tree.entry path = some found → plan path = some wanted →
    found.isDir = wanted.isDir

omit [DecidableEq ν] in
theorem eq_dir_of_isDir {found : TreeEntry β} (h : found.isDir = true) : found = .dir := by
  cases found with
  | dir => rfl
  | file contents => contradiction

theorem entry_perform (place : List ν) (h : tree.perform call = some tree') (hfollows : call.Follows plan) :
    (call.Makes place → tree'.entry place = plan place) ∧
      (tree'.entry place = tree.entry place ∨ tree'.entry place = plan place) := by
  have hmade : call.Makes place → tree'.entry place = plan place := by
    intro hmakes
    cases call with
    | createDirAll path =>
        exact (entry_createDirAll h).trans ((if_pos hmakes).trans (hfollows place hmakes).symm)
    | write path contents =>
        cases hmakes
        rw [entry_writeFile h, if_pos rfl, hfollows]
  refine ⟨hmade, ?_⟩
  by_cases hmakes : call.Makes place
  · exact Or.inr (hmade hmakes)
  · exact Or.inl (entry_perform_of_not_makes h hmakes)

/-- Each path is as it was, or as it is in the plan once a call has made it. -/
theorem entry_performAll (place : List ν) (h : tree.performAll calls = some tree')
    (hfollows : ∀ call ∈ calls, call.Follows plan) :
    ((∃ call ∈ calls, call.Makes place) → tree'.entry place = plan place) ∧
      ((∀ call ∈ calls, ¬ call.Makes place) → tree'.entry place = tree.entry place) ∧
      (tree.entry place = plan place → tree'.entry place = plan place) := by
  induction calls generalizing tree with
  | nil =>
      cases h
      simp
  | cons call rest ih =>
      obtain ⟨mid, hmid, hrest⟩ := Option.bind_eq_some_iff.mp h
      obtain ⟨hmade, hkept, hstays⟩ := ih hrest
        (fun other hother => hfollows other (List.mem_cons_of_mem _ hother))
      obtain ⟨hhere, hor⟩ := entry_perform place hmid (hfollows call List.mem_cons_self)
      refine ⟨?_, ?_, ?_⟩
      · rintro ⟨other, hother, hmakes⟩
        rcases List.mem_cons.mp hother with rfl | hother
        · exact hstays (hhere hmakes)
        · exact hmade ⟨other, hother, hmakes⟩
      · intro hnone
        rw [hkept (fun other hother => hnone other (List.mem_cons_of_mem _ hother))]
        exact entry_perform_of_not_makes hmid (hnone call List.mem_cons_self)
      · intro hplan
        apply hstays
        rcases hor with hold | hnew
        · rw [hold, hplan]
        · exact hnew

/-- The calls are a plan, all of it, and every file comes after the directory it is in. -/
structure Carries (calls : List (TreeCall ν β)) (plan : List ν → Option (TreeEntry β)) :
    Prop where
  follows : ∀ call ∈ calls, call.Follows plan
  covers : ∀ place wanted, plan place = some wanted → ∃ call ∈ calls, call.Makes place
  prepared : TreeCall.Prepared calls

/-- The plan lies over what was there. -/
theorem Carries.entry (hcarries : Carries calls plan) (h : tree.performAll calls = some tree') :
    tree'.entry place = (plan place).or (tree.entry place) := by
  obtain ⟨hmade, hkept, -⟩ := entry_performAll place h hcarries.follows
  cases hplan : plan place with
  | some wanted => rw [hmade (hcarries.covers place wanted hplan), hplan, Option.some_or]
  | none =>
      rw [Option.none_or]
      apply hkept
      intro call hcall hmakes
      have hfollows := hcarries.follows call hcall
      cases call with
      | createDirAll path =>
          have hdir := hfollows place hmakes
          rw [hplan] at hdir
          contradiction
      | write path contents =>
          cases hmakes
          have hfile : plan place = some (.file contents) := hfollows
          rw [hplan] at hfile
          contradiction

omit [DecidableEq ν] in
theorem Fits.passable (h : tree.Fits plan) {path : List ν}
    (hfollows : (TreeCall.createDirAll path : TreeCall ν β).Follows plan) :
    tree.Passable path := by
  intro above habove contents hfile
  have hkind := h above _ _ hfile (hfollows above habove)
  contradiction

theorem Fits.performAll (h : tree.Fits plan) (hcalls : tree.performAll calls = some tree')
    (hfollows : ∀ call ∈ calls, call.Follows plan) : tree'.Fits plan := by
  intro path found wanted hfound hwanted
  obtain ⟨hmade, hkept, -⟩ := entry_performAll path hcalls hfollows
  by_cases hmakes : ∃ call ∈ calls, call.Makes path
  · rw [hmade hmakes, hwanted] at hfound
    cases hfound
    rfl
  · rw [hkept (fun call hcall hcallMakes => hmakes ⟨call, hcall, hcallMakes⟩)] at hfound
    exact h path found wanted hfound hwanted

/-- The induction is on the calls made so far; a directory that was made stays. -/
theorem exists_performAll_of_fits (h : tree.Fits plan)
    (hfollows : ∀ call ∈ calls, call.Follows plan)
    (hprepared : TreeCall.Prepared calls) : ∃ tree', tree.performAll calls = some tree' := by
  induction calls using List.reverseRecOn with
  | nil => exact ⟨tree, rfl⟩
  | append_singleton front call ih =>
      have hfront : ∀ other ∈ front, other.Follows plan :=
        fun other hother => hfollows other (List.mem_append_left _ hother)
      have hcall : call.Follows plan := hfollows call (by simp)
      obtain ⟨mid, hmid⟩ := ih hfront (by
        intro start path contents back heq
        exact hprepared start path contents (back ++ [call]) (by simp [heq]))
      have hfits := h.performAll hmid hfront
      have hlast : ∃ tree', mid.perform call = some tree' := by
        cases call with
        | createDirAll path => exact createDirAll_isSome_iff.mpr (hfits.passable hcall)
        | write path contents =>
            obtain ⟨hne, hparent⟩ := hprepared front path contents [] rfl
            have hmade := (entry_performAll path.dropLast hmid hfront).1
              ⟨_, hparent, List.prefix_rfl⟩
            rw [hfront _ hparent _ List.prefix_rfl] at hmade
            refine writeFile_isSome_iff.mpr ⟨hne, hmade, ?_⟩
            intro hdir
            have hkind := hfits path _ _ hdir hcall
            contradiction
      obtain ⟨tree', htree'⟩ := hlast
      exact ⟨tree', by simp [performAll_append, hmid, htree']⟩

theorem Carries.succeeds_iff (hcarries : Carries calls plan) :
    (∃ tree', tree.performAll calls = some tree') ↔ tree.Fits plan := by
  constructor
  · rintro ⟨tree', h⟩ path found wanted hfound hwanted
    obtain ⟨found', hfound', hkind⟩ := isDir_performAll h hfound
    rw [hcarries.entry h, hwanted, Option.some_or] at hfound'
    cases hfound'
    exact hkind.symm
  · intro h
    exact exists_performAll_of_fits h hcarries.follows hcarries.prepared

end

end FileTree

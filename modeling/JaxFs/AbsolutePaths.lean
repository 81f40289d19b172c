import JaxFs.DeepListing
import JaxFs.TreeInvariant

/-!
# Mounts and absolute paths

HTTP and gateway requests pass any absolute path on to the mount.  `file_name` is `None` for
a path that ends in `..` as well as for the root, while `parent` is `None` for the root
alone, and the operations unwrap the one after a test of the other.  So each of them has its
own paths on which it panics.
-/

namespace JaxFs

/-- Parts of a path behind its root; `.` is never one of them. -/
def WellFormed (parts : Path) : Prop :=
  ∀ part ∈ parts, part = .parentDir ∨ ∃ name, part = .normal name ∧ ValidName name

structure AbsolutePath where
  parts : Path
  wellFormed : WellFormed parts

theorem not_mem_of_mem_splitOn {c : Char} {s piece : Name} (h : piece ∈ s.splitOn c) :
    c ∉ piece := by
  induction s generalizing piece with
  | nil =>
      rw [List.splitOn_nil, List.mem_singleton] at h
      rw [h]
      exact List.not_mem_nil
  | cons d rest ih =>
      rw [List.splitOn_cons_eq_if_modifyHead] at h
      split_ifs at h with hsame
      · rcases List.mem_cons.mp h with rfl | hrest
        · exact List.not_mem_nil
        · exact ih hrest
      · cases hsplit : rest.splitOn c with
        | nil => exact absurd hsplit (List.splitOn_ne_nil c rest)
        | cons first others =>
            rw [hsplit] at h
            rcases List.mem_cons.mp h with rfl | hothers
            · rw [List.mem_cons]
              rintro (rfl | hmem)
              · exact hsame (by simp)
              · exact ih (hsplit ▸ List.mem_cons_self) hmem
            · exact ih (hsplit ▸ List.mem_cons_of_mem _ hothers)

theorem wellFormed_components (s : Name) : WellFormed (components s) := by
  intro part hpart
  unfold components at hpart
  obtain ⟨piece, hpiece, hcomponent⟩ := List.mem_filterMap.mp hpart
  unfold componentOf at hcomponent
  split_ifs at hcomponent with hempty hdots
  · cases hcomponent
    exact Or.inl rfl
  · cases hcomponent
    right
    refine ⟨piece, rfl, ?_⟩
    exact
      { ne_nil := fun h => hempty (Or.inl h)
        no_slash := not_mem_of_mem_splitOn hpiece
        ne_dot := fun h => hempty (Or.inr h)
        ne_dots := hdots }

namespace AbsolutePath

def path (p : AbsolutePath) : Path := .rootDir :: p.parts

/-- Every string with a slash in front is an absolute path. -/
def parse (s : Name) : AbsolutePath := ⟨components s, wellFormed_components s⟩

theorem path_parse {s : Name} (h : s.head? = some '/') : (parse s).path = Path.parse s :=
  (if_pos h).symm

end AbsolutePath

theorem WellFormed.dropLast {parts : Path} (h : WellFormed parts) : WellFormed parts.dropLast :=
  fun part hpart => h part (List.mem_of_mem_dropLast hpart)

/-- The last part is `..`. -/
def EndsInParent (path : Path) : Prop := path.getLast? = some .parentDir

instance (path : Path) : Decidable (EndsInParent path) :=
  inferInstanceAs (Decidable (path.getLast? = some .parentDir))

/-- How a path can end. -/
theorem WellFormed.cases {parts : Path} (h : WellFormed parts) :
    parts = [] ∨ (∃ parent, parts = parent ++ [.parentDir]) ∨
      ∃ parent name, parts = parent ++ [.normal name] := by
  rcases List.eq_nil_or_concat parts with rfl | ⟨parent, last, rfl⟩
  · exact Or.inl rfl
  · rw [List.concat_eq_append] at h ⊢
    right
    rcases h last (by simp) with rfl | ⟨name, rfl, _⟩
    · exact Or.inl ⟨parent, rfl⟩
    · exact Or.inr ⟨parent, name, rfl⟩

/-- The operations of a mount that take absolute paths. -/
inductive MountCall where
  | get (path : AbsolutePath)
  | cat (path : AbsolutePath)
  | ls (path : AbsolutePath)
  | lsDeep (path : AbsolutePath)
  | add (path : AbsolutePath) (data : Bytes)
  | rm (path : AbsolutePath)
  | mkdir (path : AbsolutePath)
  | mv (source target : AbsolutePath)

/-- A read ends with a value or with an error that it returns. -/
def ReadReturns {α : Type} (x : Except Fault α) : Prop :=
  ∀ fault, x = .error fault → ∃ error, fault = .error error

section

variable {α β : Type}

theorem readReturns_ok (a : α) : ReadReturns (.ok a) := fun _ h => nomatch h

theorem readReturns_error (error : MountError) :
    ReadReturns (.error (.error error) : Except Fault α) := by
  intro fault h
  cases h
  exact ⟨error, rfl⟩

theorem not_readReturns_panic : ¬ ReadReturns (.error .panic : Except Fault α) := by
  intro h
  obtain ⟨error, herror⟩ := h .panic rfl
  cases herror

theorem readReturns_bind_iff {x : Except Fault α} {f : α → Except Fault β}
    (hf : ∀ a, x = .ok a → ReadReturns (f a)) : ReadReturns (x >>= f) ↔ ReadReturns x := by
  cases x with
  | ok a => exact iff_of_true (hf a rfl) (readReturns_ok a)
  | error fault =>
      constructor
      · exact fun h fault' hfault => h fault' (by cases hfault; rfl)
      · exact fun h fault' hfault => h fault' (by cases hfault; rfl)

end

section

variable [P : Primitives]

/-- There is a node behind the parts. -/
def Readable (state : MountState) (parts : Path) : Prop :=
  ∃ node, walkNode state.world.blobs state.inner.entry (parts.map Component.toName) = some node

/-- There is an entry at the parts. -/
def Present (state : MountState) (parts : Path) : Prop :=
  ∃ link, findLink state.world.blobs state.inner.entry (parts.map Component.toName) = some link

/-- What keeps a call from a path that it panics on, or a listing from going on forever. -/
def MountCall.Safe (state : MountState) : MountCall → Prop
  | .get p | .cat p | .mkdir p => ¬ EndsInParent p.parts
  | .ls _ => True
  | .lsDeep p =>
      Acc (fun child parent => Enters state.world.blobs state.inner.entry parent child) p.path
  | .add p _ => p.parts ≠ [] ∧ ¬ EndsInParent p.parts
  | .rm p =>
      (EndsInParent p.parts → ¬ Readable state p.parts.dropLast) ∧
      (Present state p.parts → ¬ EndsInParent p.parts.dropLast)
  -- the source is looked up first, then the target, and only then is the source removed
  | .mv source target =>
      target.path.startsWith source.path = true ∨
      (¬ EndsInParent source.parts ∧
        (Present state source.parts → ¬ EndsInParent target.parts ∧
          (¬ Present state target.parts → ¬ EndsInParent source.parts.dropLast ∧
            (target.parts = [] → ¬ ThroughDirs state.world.blobs state.inner.entry
              source.parts.dropLast.dropLast))))

section

variable {state : MountState} {α β : Type}

/-! ## Reads -/

section

variable [LawfulPrimitives]

omit [LawfulPrimitives] in
theorem Present.readable {parts : Path} (h : Present state parts) :
    Readable state parts.dropLast := by
  obtain ⟨link, hlink⟩ := h
  rcases List.eq_nil_or_concat parts with rfl | ⟨parent, last, rfl⟩
  · cases hlink
  · rw [List.concat_eq_append, List.map_append, List.map_cons, List.map_nil,
      findLink_append_singleton] at hlink
    obtain ⟨node, hnode, _⟩ := Option.bind_eq_some_iff.mp hlink
    rw [List.concat_eq_append, List.dropLast_concat]
    exact ⟨node, hnode⟩

end

end

end

namespace Reference

/-- The paths that a listing shows, and whether they are directories. -/
def listed (state : MountState) (path : Path) : Option (List (Path × Bool)) :=
  (Mount.ls state.world.blobs state.inner.entry path).toOption.map (fun items =>
    items.toList.map (fun item => (item.1, item.2.isDir)))

end Reference

end JaxFs

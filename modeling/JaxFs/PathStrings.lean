import JaxFs.Paths
import Mathlib.Data.List.DropRight

/-!
# Path strings

The strings by which the FUSE layer of the daemon names files: what `Path::new` makes
of them, and the helpers of `fuse/inode_table.rs`.  `normalize_key` of the file cache is
the same function as `normalize_path`.  The kernel passes single names, never empty, `.`
or `..` and without a slash.
-/

namespace JaxFs

/-- `char::is_whitespace`. -/
def isWhitespace (c : Char) : Bool :=
  decide (c.toNat ∈ [0x09, 0x0a, 0x0b, 0x0c, 0x0d, 0x20, 0x85, 0xa0, 0x1680, 0x2000,
    0x2001, 0x2002, 0x2003, 0x2004, 0x2005, 0x2006, 0x2007, 0x2008, 0x2009, 0x200a,
    0x2028, 0x2029, 0x202f, 0x205f, 0x3000])

/-- `str::trim`. -/
def trim (s : Name) : Name := (s.dropWhile isWhitespace).rdropWhile isWhitespace

/-- `InodeTable::normalize_path` and `FileCache::normalize_key`. -/
def normalizePath (path : Name) : Name :=
  let path := trim path
  if path = [] ∨ path = ['/'] then ['/']
  else
    let normalized := if path.head? = some '/' then path else '/' :: path
    if normalized.length > 1 ∧ normalized.getLast? = some '/' then normalized.dropLast
    else normalized

/-- `InodeTable::parent_path`: up to the last slash. -/
def parentPath (path : Name) : Name :=
  let normalized := normalizePath path
  if normalized = ['/'] then ['/']
  else
    let parent := (normalized.rdropWhile (fun c => decide (c ≠ '/'))).dropLast
    if parent = [] then ['/'] else parent

/-- `InodeTable::filename`: after the last slash. -/
def filename (path : Name) : Name :=
  let normalized := trim path
  if normalized = ['/'] ∨ normalized = [] then []
  else normalized.rtakeWhile (fun c => decide (c ≠ '/'))

/-- The path of a name in a directory, as every request builds it. -/
def joinPath (parent name : Name) : Name :=
  if parent = ['/'] then '/' :: name else parent ++ '/' :: name

/-! ## Components -/

/-- The component of a piece between two slashes; an empty piece and `.` have none. -/
def componentOf (piece : Name) : Option Component :=
  if piece = [] ∨ piece = ['.'] then none
  else if piece = ['.', '.'] then some .parentDir
  else some (.normal piece)

def components (s : Name) : Path := (s.splitOn '/').filterMap componentOf

/-- `Path::new`: a `.` counts only at the start of a relative path. -/
def Path.parse (s : Name) : Path :=
  if s.head? = some '/' then .rootDir :: components s
  else if (s.splitOn '/').head? = some ['.'] then .curDir :: components s
  else components s

/-- What the kernel passes as a name. -/
structure ValidName (name : Name) : Prop where
  ne_nil : name ≠ []
  no_slash : '/' ∉ name
  ne_dot : name ≠ ['.']
  ne_dots : name ≠ ['.', '.']

/-- The string of an absolute path. -/
def pathString (names : List Name) : Name := names.foldl joinPath ['/']

@[simp] theorem pathString_nil : pathString [] = ['/'] := rfl

theorem pathString_concat (names : List Name) (name : Name) :
    pathString (names ++ [name]) = joinPath (pathString names) name := by
  unfold pathString
  rw [List.foldl_append]
  rfl

theorem components_append_cons (s s' : Name) :
    components (s ++ '/' :: s') = components s ++ components s' := by
  unfold components
  rw [List.splitOn_append_cons_self, List.filterMap_append]

theorem components_of_not_mem {s : Name} (h : '/' ∉ s) :
    components s = (componentOf s).toList := by
  unfold components
  rw [List.splitOn_eq_singleton h]
  cases hs : componentOf s <;> simp [hs]

theorem components_nil : components [] = [] := rfl

theorem ValidName.components {name : Name} (h : ValidName name) :
    components name = [.normal name] := by
  rw [components_of_not_mem h.no_slash, componentOf, if_neg, if_neg h.ne_dots]
  · rfl
  · exact fun hor => hor.elim h.ne_nil h.ne_dot

theorem head?_joinPath {parent : Name} (h : parent.head? = some '/') (name : Name) :
    (joinPath parent name).head? = some '/' := by
  unfold joinPath
  split_ifs
  · rfl
  · rw [List.head?_append, h]
    rfl

/-- A name in a directory is one component more. -/
theorem parse_joinPath {parent : Name} (h : parent.head? = some '/') (name : Name) :
    Path.parse (joinPath parent name) = Path.parse parent ++ components name := by
  unfold Path.parse
  rw [if_pos (head?_joinPath h name), if_pos h, List.cons_append]
  unfold joinPath
  split_ifs with hroot
  · rw [hroot]
    exact congrArg _ (components_append_cons [] name)
  · rw [components_append_cons]

theorem head?_pathString (names : List Name) : (pathString names).head? = some '/' := by
  induction names using List.reverseRecOn with
  | nil => rfl
  | append_singleton names name ih =>
      rw [pathString_concat]
      exact head?_joinPath ih name

theorem parse_pathString {names : List Name} (h : ∀ name ∈ names, ValidName name) :
    Path.parse (pathString names) = absPath names := by
  induction names using List.reverseRecOn with
  | nil => rfl
  | append_singleton names name ih =>
      have hnames := ih (fun other hother => h other (List.mem_append_left _ hother))
      rw [pathString_concat, parse_joinPath (head?_pathString names), hnames,
        (h name (by simp)).components]
      simp [absPath]

/-! ## Normal forms -/

theorem head?_trim {s : Name} (h : s.head? = some '/') : (trim s).head? = some '/' := by
  cases s with
  | nil => contradiction
  | cons c rest =>
      cases h
      have hleft : ('/' :: rest).dropWhile isWhitespace = '/' :: rest := rfl
      have hpre : trim ('/' :: rest) <+: '/' :: rest := by
        unfold trim
        rw [hleft]
        exact List.rdropWhile_prefix _ _
      cases htrim : trim ('/' :: rest) with
      | nil =>
          unfold trim at htrim
          rw [hleft, List.rdropWhile_eq_nil_iff] at htrim
          exact absurd (htrim '/' List.mem_cons_self) (by decide)
      | cons d others =>
          rw [htrim, List.cons_prefix_cons] at hpre
          rw [hpre.1]
          rfl

/-- Every normal form is an absolute path. -/
theorem head?_normalizePath (path : Name) : (normalizePath path).head? = some '/' := by
  unfold normalizePath
  dsimp only
  by_cases hroot : trim path = [] ∨ trim path = ['/']
  · rw [if_pos hroot]
    rfl
  · rw [if_neg hroot]
    have hhead : (if (trim path).head? = some '/' then trim path
        else '/' :: trim path).head? = some '/' := by
      split_ifs with habs
      · exact habs
      · rfl
    generalize (if (trim path).head? = some '/' then trim path else '/' :: trim path) = s at *
    split_ifs with hslash
    · cases s with
      | nil => contradiction
      | cons c rest =>
          cases rest with
          | nil =>
              have hlong := hslash.1
              simp at hlong
          | cons d rest => simpa using hhead
    · exact hhead

/-- Normalising an absolute path shortens it. -/
theorem length_normalizePath_le {path : Name} (h : path.head? = some '/') :
    (normalizePath path).length ≤ path.length := by
  have htrim : (trim path).length ≤ path.length := by
    unfold trim
    exact (List.rdropWhile_prefix _ _).length_le.trans
      (List.dropWhile_suffix _).length_le
  have hpos : 1 ≤ path.length := by
    cases path with
    | nil => contradiction
    | cons c rest => simp
  unfold normalizePath
  dsimp only
  rw [if_pos (head?_trim h)]
  split_ifs with hroot hslash
  · exact hpos
  · rw [List.length_dropLast]
    omega
  · exact htrim

/-! ## Names without blanks at the end -/

/-- A name that `trim` leaves alone at the end of a path. -/
structure PlainName (name : Name) : Prop extends ValidName name where
  no_blank : ∀ c, name.getLast? = some c → isWhitespace c = false

section

variable {names : List Name} {name : Name}

/-- What stands before the slash of a joined path. -/
def beforeSlash (parent : Name) : Name := if parent = ['/'] then [] else parent

theorem joinPath_eq (parent name : Name) :
    joinPath parent name = beforeSlash parent ++ '/' :: name := by
  unfold joinPath beforeSlash
  split_ifs <;> rfl

theorem getLast?_joinPath (parent : Name) (hname : name ≠ []) :
    (joinPath parent name).getLast? = name.getLast? := by
  cases name with
  | nil => contradiction
  | cons c rest =>
      rw [joinPath_eq, List.getLast?_append, List.getLast?_cons_cons]
      cases hlast : (c :: rest).getLast? with
      | none => simp at hlast
      | some d => rfl

theorem joinPath_ne_root (parent : Name) (hname : name ≠ []) : joinPath parent name ≠ ['/'] := by
  intro heq
  have hlength := congrArg List.length heq
  have hpos := List.length_pos_iff.mpr hname
  simp [joinPath_eq] at hlength
  omega

theorem trim_pathString (h : ∀ name ∈ names, PlainName name) :
    trim (pathString names) = pathString names := by
  have hleft : (pathString names).dropWhile isWhitespace = pathString names := by
    have hhead := head?_pathString names
    cases hpath : pathString names with
    | nil => rfl
    | cons c rest =>
        rw [hpath] at hhead
        cases hhead
        rfl
  unfold trim
  rw [hleft, List.rdropWhile_eq_self_iff]
  intro hne
  have hlast := List.getLast?_eq_some_getLast hne
  generalize (pathString names).getLast hne = c at hlast
  rcases List.eq_nil_or_concat names with rfl | ⟨parents, name, rfl⟩
  · cases hlast
    decide
  · rw [List.concat_eq_append] at h hlast
    have hname := h name (by simp)
    rw [pathString_concat, getLast?_joinPath _ hname.ne_nil] at hlast
    simp [hname.no_blank c hlast]

theorem normalizePath_pathString (h : ∀ name ∈ names, PlainName name) :
    normalizePath (pathString names) = pathString names := by
  unfold normalizePath
  dsimp only
  rw [trim_pathString h, head?_pathString, if_pos rfl]
  split_ifs with hroot hslash
  · rcases hroot with hnil | hroot
    · have hhead := head?_pathString names
      rw [hnil] at hhead
      contradiction
    · exact hroot.symm
  · exfalso
    rcases List.eq_nil_or_concat names with rfl | ⟨parents, name, rfl⟩
    · exact hroot (Or.inr rfl)
    · rw [List.concat_eq_append] at h hslash
      have hname := h name (by simp)
      rw [pathString_concat, getLast?_joinPath _ hname.ne_nil] at hslash
      exact hname.no_slash (List.mem_of_getLast? hslash.2)
  · rfl

theorem rdropWhile_joinPath (parent : Name) (hname : '/' ∉ name) :
    (joinPath parent name).rdropWhile (fun c => decide (c ≠ '/')) =
      beforeSlash parent ++ ['/'] := by
  rw [joinPath_eq]
  induction name using List.reverseRecOn with
  | nil => simp
  | append_singleton name c ih =>
      have hc : c ≠ '/' := by
        rintro rfl
        simp at hname
      have hrest : '/' ∉ name := fun hmem => hname (List.mem_append_left _ hmem)
      rw [← List.cons_append, ← List.append_assoc,
        List.rdropWhile_concat_pos _ _ _ (by simp [hc])]
      exact ih hrest

theorem rtakeWhile_joinPath (parent : Name) (hname : '/' ∉ name) :
    (joinPath parent name).rtakeWhile (fun c => decide (c ≠ '/')) = name := by
  have hsplit : (joinPath parent name).rdropWhile (fun c => decide (c ≠ '/')) ++
      (joinPath parent name).rtakeWhile (fun c => decide (c ≠ '/')) = joinPath parent name :=
    List.rdropWhile_append_rtakeWhile
  rw [rdropWhile_joinPath parent hname] at hsplit
  nth_rewrite 2 [joinPath_eq] at hsplit
  simpa using hsplit

theorem parentPath_pathString (h : ∀ other ∈ names ++ [name], PlainName other) :
    parentPath (pathString (names ++ [name])) = pathString names := by
  have hname := h name (by simp)
  unfold parentPath
  dsimp only
  rw [normalizePath_pathString h, pathString_concat,
    if_neg (joinPath_ne_root _ hname.ne_nil), rdropWhile_joinPath _ hname.no_slash,
    List.dropLast_concat]
  unfold beforeSlash
  split_ifs with hroot hnil
  · exact hroot.symm
  · contradiction
  · rename_i hempty
    have hhead := head?_pathString names
    rw [hempty] at hhead
    contradiction
  · rfl

theorem filename_pathString (h : ∀ other ∈ names ++ [name], PlainName other) :
    filename (pathString (names ++ [name])) = name := by
  have hname := h name (by simp)
  unfold filename
  dsimp only
  rw [trim_pathString h, pathString_concat, if_neg, rtakeWhile_joinPath _ hname.no_slash]
  rintro (hroot | hnil)
  · exact joinPath_ne_root _ hname.ne_nil hroot
  · simp [joinPath_eq] at hnil

theorem pathString_injOn {names' : List Name} (h : ∀ name ∈ names, ValidName name)
    (h' : ∀ name ∈ names', ValidName name) (heq : pathString names = pathString names') :
    names = names' := by
  have hparse := congrArg Path.parse heq
  rw [parse_pathString h, parse_pathString h', ← rootDir_relPath, ← rootDir_relPath] at hparse
  exact relPath_injective (List.cons.inj hparse).2

end

end JaxFs

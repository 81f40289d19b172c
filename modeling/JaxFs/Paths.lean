import JaxFs.LinkedData

/-!
# Paths

`std::path` as the crate uses it.  A path is the list of its components, which
is how `Path` values are compared and ordered; `Path::components` has already
dropped repeated separators and interior `.` components.
-/

namespace JaxFs

/-- `std::path::Component` on Unix. -/
inductive Component where
  | rootDir
  | curDir
  | parentDir
  | normal (name : Name)
  deriving DecidableEq

/-- The derived order of the components: by variant, normal ones by name. -/
def Component.orderKey : Component → ℕ ×ₗ Name
  | .rootDir => toLex (0, [])
  | .curDir => toLex (1, [])
  | .parentDir => toLex (2, [])
  | .normal name => toLex (3, name)

theorem Component.orderKey_injective : Function.Injective Component.orderKey := by
  intro a b h
  cases a <;> cases b <;> simp_all [Component.orderKey]

instance : LinearOrder Component :=
  LinearOrder.lift' Component.orderKey Component.orderKey_injective

/-- The string of a component, as `Path::iter` yields it. -/
def Component.toName : Component → Name
  | .rootDir => ['/']
  | .curDir => ['.']
  | .parentDir => ['.', '.']
  | .normal name => name

/-- `Path` and `PathBuf`. -/
abbrev Path := List Component

namespace Path

def isAbsolute (path : Path) : Bool := path.head? = some .rootDir

/-- `Path::parent`: `None` for the empty path and for the root. -/
def parent (path : Path) : Option Path :=
  match path.getLast? with
  | none => none
  | some .rootDir => none
  | some _ => some path.dropLast

/-- `Path::file_name`: the last component, when it is a normal one. -/
def fileName (path : Path) : Option Name :=
  match path.getLast? with
  | some (.normal name) => some name
  | _ => none

/-- `Path::join`: an absolute argument replaces the receiver. -/
def join (path other : Path) : Path :=
  if isAbsolute other then other else path ++ other

/-- `Path::starts_with`, component by component. -/
def startsWith (path base : Path) : Bool := base.isPrefixOf path

end Path

/-- The absolute path with the given normal components. -/
def absPath (names : List Name) : Path := .rootDir :: names.map .normal

/-- The relative path with the given normal components. -/
def relPath (names : List Name) : Path := names.map .normal

theorem rootDir_relPath (names : List Name) : .rootDir :: relPath names = absPath names :=
  rfl

@[simp] theorem relPath_nil : relPath [] = [] := rfl

@[simp] theorem relPath_cons (name : Name) (names : List Name) :
    relPath (name :: names) = .normal name :: relPath names := rfl

@[simp] theorem relPath_append (names names' : List Name) :
    relPath (names ++ names') = relPath names ++ relPath names' :=
  List.map_append

theorem relPath_injective : Function.Injective relPath :=
  List.map_injective_iff.mpr (fun _ _ h => Component.normal.inj h)

theorem absPath_startsWith_iff {names base : List Name} :
    (absPath names).startsWith (absPath base) = true ↔ base <+: names := by
  unfold Path.startsWith absPath
  rw [List.isPrefixOf_iff_prefix, List.cons_prefix_cons]
  simp only [true_and]
  constructor
  · rintro ⟨rest, hrest⟩
    obtain ⟨left, right, rfl, hleft, -⟩ := List.map_eq_append_iff.mp hrest.symm
    rw [relPath_injective hleft]
    exact List.prefix_append _ _
  · rintro ⟨rest, rfl⟩
    rw [List.map_append]
    exact List.prefix_append _ _

@[simp] theorem relPath_parent_append_singleton (names : List Name) (name : Name) :
    (relPath (names ++ [name])).parent = some (relPath names) := by
  simp [Path.parent]

@[simp] theorem relPath_fileName_append_singleton (names : List Name) (name : Name) :
    (relPath (names ++ [name])).fileName = some name := by
  simp [Path.fileName]

end JaxFs

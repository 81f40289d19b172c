import JaxFs.MountTree

/-!
# Lookups in the tree

The tree of a mount seen as a partial function from name paths to links.
`findLink` is what every read of the crate computes, `Updated` what a rewrite of
the tree leaves behind: the nodes from the root to one directory replaced, all
others as before.  Stores only grow, and links that were readable stay so.
-/

namespace JaxFs

section

variable [P : Primitives]

/-- The node a link leads to. -/
def loadNode (blobs : Blobs) (link : NodeLink) : Option Node :=
  (getNodeFromBlobs blobs link).toOption

/-- The node at a path of names. -/
def walkNode (blobs : Blobs) : Node → List Name → Option Node
  | node, [] => some node
  | node, name :: rest =>
      ((node.getLink name).bind (loadNode blobs)).bind
        (fun child => walkNode blobs child rest)

/-- The link at a nonempty path of names. -/
def findLink (blobs : Blobs) : Node → List Name → Option NodeLink
  | _, [] => none
  | node, [name] => node.getLink name
  | node, name :: next :: rest =>
      ((node.getLink name).bind (loadNode blobs)).bind
        (fun child => findLink blobs child (next :: rest))

theorem findLink_cons {blobs : Blobs} {node : Node} {name : Name} {rest : List Name}
    (hrest : rest ≠ []) :
    findLink blobs node (name :: rest) =
      ((node.getLink name).bind (loadNode blobs)).bind
        (fun child => findLink blobs child rest) := by
  cases rest with
  | nil => contradiction
  | cons next rest => rfl

theorem findLink_append_singleton (blobs : Blobs) (node : Node) (names : List Name)
    (name : Name) :
    findLink blobs node (names ++ [name]) =
      (walkNode blobs node names).bind (fun parent => parent.getLink name) := by
  induction names generalizing node with
  | nil => rfl
  | cons first rest ih =>
      rw [List.cons_append, findLink_cons (by simp), walkNode]
      cases (node.getLink first).bind (loadNode blobs) with
      | none => rfl
      | some child => exact ih child

theorem walkNode_append (blobs : Blobs) (node : Node) (names rest : List Name) :
    walkNode blobs node (names ++ rest) =
      (walkNode blobs node names).bind (fun child => walkNode blobs child rest) := by
  induction names generalizing node with
  | nil => rfl
  | cons first names ih =>
      rw [List.cons_append, walkNode, walkNode]
      cases (node.getLink first).bind (loadNode blobs) with
      | none => rfl
      | some child => exact ih child

/-- Below a node that is reached, lookups continue from it. -/
theorem findLink_append {blobs : Blobs} {node : Node} {names rest : List Name}
    (hrest : rest ≠ []) :
    findLink blobs node (names ++ rest) =
      (walkNode blobs node names).bind (fun child => findLink blobs child rest) := by
  induction names generalizing node with
  | nil => rfl
  | cons first names ih =>
      rw [List.cons_append, findLink_cons (by simp [hrest]), walkNode]
      cases (node.getLink first).bind (loadNode blobs) with
      | none => rfl
      | some child => exact ih

theorem walkNode_of_findLink {blobs : Blobs} {node : Node} {names : List Name}
    (hnames : names ≠ []) :
    walkNode blobs node names =
      (findLink blobs node names).bind (loadNode blobs) := by
  induction names generalizing node with
  | nil => contradiction
  | cons first rest ih =>
      cases rest with
      | nil =>
          rw [walkNode, findLink]
          cases (node.getLink first).bind (loadNode blobs) with
          | none => rfl
          | some child => rfl
      | cons next rest =>
          rw [walkNode, findLink]
          cases (node.getLink first).bind (loadNode blobs) with
          | none => rfl
          | some child => exact ih (by simp)

/-! ## The reads of the crate -/

omit P in
theorem map_toName_relPath (names : List Name) :
    (relPath names).map Component.toName = names := by
  simp [relPath, Function.comp_def, Component.toName]

/-- A read follows the strings of the components, whatever they are. -/
theorem getNodeAtPathFrom_eq_ok {blobs : Blobs} {consumed path : Path}
    {node child : Node} :
    getNodeAtPathFrom blobs consumed node path = .ok child ↔
      walkNode blobs node (path.map Component.toName) = some child := by
  induction path generalizing consumed node with
  | nil => simp [getNodeAtPathFrom, walkNode]
  | cons first rest ih =>
      rw [getNodeAtPathFrom, List.map_cons, walkNode]
      cases node.getLink first.toName with
      | none => simp
      | some link =>
          dsimp only
          rw [Option.bind_some, loadNode]
          cases hload : getNodeFromBlobs blobs link with
          | error fault => simp [Except.toOption]
          | ok next =>
              rw [Except.toOption, Option.bind_some]
              exact ih

theorem getNodeAtPathFrom_eq_ok_iff {blobs : Blobs} {consumed : Path} {node child : Node}
    {names : List Name} :
    getNodeAtPathFrom blobs consumed node (relPath names) = .ok child ↔
      walkNode blobs node names = some child := by
  rw [getNodeAtPathFrom_eq_ok, map_toName_relPath]

theorem walkNode_eq_none_of_error {blobs : Blobs} {entry : Node} {names : List Name}
    {fault : Fault} (h : getNodeAtPath blobs entry (relPath names) = .error fault) :
    walkNode blobs entry names = none := by
  cases hwalk : walkNode blobs entry names with
  | none => rfl
  | some child =>
      rw [getNodeAtPath, getNodeAtPathFrom_eq_ok_iff.mpr hwalk] at h
      contradiction

/-- The errors that say where a path ends, and nothing about the store. -/
def MountError.isMissingOrTaken : MountError → Bool
  | .pathNotFound _ => true
  | .pathAlreadyExists _ => true
  | _ => false

theorem getNodeFromBlobs_error {blobs : Blobs} {link : NodeLink} {fault : Fault}
    (h : getNodeFromBlobs blobs link = .error fault) :
    ∃ error, fault = .error error ∧ error.isMissingOrTaken = false := by
  unfold getNodeFromBlobs at h
  cases hblob : blobs link.link.hash with
  | none =>
      simp only [hblob] at h
      cases h
      exact ⟨_, rfl, rfl⟩
  | some blob =>
      simp only [hblob] at h
      cases hdata : link.secret.decrypt blob with
      | none =>
          simp only [hdata] at h
          cases h
          exact ⟨_, rfl, rfl⟩
      | some data =>
          simp only [hdata] at h
          cases hnode : P.decodeNode data with
          | none =>
              simp only [hnode] at h
              cases h
              exact ⟨_, rfl, rfl⟩
          | some node =>
              simp only [hnode] at h
              contradiction

theorem visitNodes_error {blobs : Blobs} {consumed : Path} {node : Node} {path : Path}
    {fault : Fault} (h : visitNodes blobs consumed node path = .error fault) :
    ∃ error, fault = .error error ∧ error.isMissingOrTaken = false := by
  induction path generalizing consumed node with
  | nil => contradiction
  | cons part rest ih =>
      rw [visitNodes] at h
      cases hlink : node.getLink part.toName with
      | none =>
          simp only [hlink] at h
          cases hrest : visitNodes blobs (consumed ++ [part]) Node.default rest with
          | error fault' =>
              simp only [hrest] at h
              cases h
              exact ih hrest
          | ok visited =>
              simp only [hrest] at h
              contradiction
      | some link =>
          cases link with
          | data link secret mime =>
              simp only [hlink] at h
              cases h
              exact ⟨_, rfl, rfl⟩
          | dir link secret =>
              simp only [hlink] at h
              cases hload : getNodeFromBlobs blobs (.dir link secret) with
              | error fault' =>
                  simp only [hload] at h
                  cases h
                  exact getNodeFromBlobs_error hload
              | ok next =>
                  simp only [hload] at h
                  cases hrest : visitNodes blobs (consumed ++ [part]) next rest with
                  | error fault' =>
                      simp only [hrest] at h
                      cases h
                      exact ih hrest
                  | ok visited =>
                      simp only [hrest] at h
                      contradiction

theorem getParentNode_relPath (blobs : Blobs) (entry : Node) (names : List Name) :
    getParentNode blobs entry (relPath names) =
      getNodeAtPath blobs entry (relPath names) := by
  unfold getParentNode
  cases names with
  | nil => rfl
  | cons first rest => simp

omit P in
theorem cleanPath_absPath (names : List Name) :
    cleanPath (absPath names) = .ok (relPath names) := by
  simp [cleanPath, absPath, Path.isAbsolute, relPath]

omit P in
theorem parentAndName_relPath (names : List Name) (name : Name) :
    parentAndName (relPath (names ++ [name])) = .ok (some (relPath names, name)) := by
  unfold parentAndName
  rw [relPath_parent_append_singleton, relPath_fileName_append_singleton]

theorem get_absPath_nil (blobs : Blobs) (entry : Node) :
    get blobs entry (absPath []) = .error (.error (.pathNotFound [])) := rfl

theorem get_absPath (blobs : Blobs) (entry : Node) (names : List Name) (name : Name) :
    get blobs entry (absPath (names ++ [name])) =
      match getNodeAtPath blobs entry (relPath names) with
      | .error fault => .error fault
      | .ok parentNode =>
          match parentNode.getLink name with
          | some link => .ok link
          | none => .error (.error (.pathNotFound (relPath (names ++ [name])))) := by
  unfold get
  simp only [cleanPath_absPath, parentAndName_relPath, getParentNode_relPath, bind,
    Except.bind]
  cases getNodeAtPath blobs entry (relPath names) with
  | error fault => rfl
  | ok parentNode => rfl

/-- What `get` answers on a path of names. -/
theorem get_eq_ok_iff {blobs : Blobs} {entry : Node} {names : List Name}
    {link : NodeLink} :
    get blobs entry (absPath names) = .ok link ↔
      findLink blobs entry names = some link := by
  rcases List.eq_nil_or_concat names with rfl | ⟨parents, name, rfl⟩
  · simp [get_absPath_nil, findLink]
  · rw [List.concat_eq_append, get_absPath, findLink_append_singleton]
    cases hparent : getNodeAtPath blobs entry (relPath parents) with
    | error fault =>
        have hnone := walkNode_eq_none_of_error hparent
        simp [hnone]
    | ok parentNode =>
        rw [getNodeAtPathFrom_eq_ok_iff.mp hparent]
        cases hlink : parentNode.getLink name with
        | none => simp [hlink]
        | some found => simp [hlink]

omit P in
theorem parentAndName_eq_some_iff {path parent : Path} {name : Name} :
    parentAndName path = .ok (some (parent, name)) ↔ path = parent ++ [.normal name] := by
  rcases List.eq_nil_or_concat path with rfl | ⟨init, last, rfl⟩
  · simp [parentAndName, Path.parent]
  · rw [List.concat_eq_append, List.append_singleton_inj]
    cases last with
    | normal last => simp [parentAndName, Path.parent, Path.fileName]
    | _ => simp [parentAndName, Path.parent, Path.fileName]

theorem getParentNode_eq_ok_iff {blobs : Blobs} {entry parentNode : Node} {path : Path} :
    getParentNode blobs entry path = .ok parentNode ↔
      walkNode blobs entry (path.map Component.toName) = some parentNode := by
  unfold getParentNode
  split_ifs with hroot
  · rw [hroot]
    simp [walkNode]
  · exact getNodeAtPathFrom_eq_ok

/-- What `cat` reads: the blob behind a file link, on any path it accepts. -/
theorem cat_eq_ok_iff {blobs : Blobs} {entry : Node} {path : Path} {data : Bytes} :
    cat blobs entry path = .ok data ↔
      ∃ parent name link secret mime blob, path = .rootDir :: (parent ++ [.normal name]) ∧
        findLink blobs entry (parent.map Component.toName ++ [name]) =
          some (.data link secret mime) ∧
        blobs link.hash = some blob ∧ secret.decrypt blob = some data := by
  unfold cat
  constructor
  · intro h
    obtain ⟨cleaned, hcleaned, h⟩ := Except.bind_eq_ok_iff.mp h
    obtain ⟨split, hsplit, h⟩ := Except.bind_eq_ok_iff.mp h
    cases split with
    | none => contradiction
    | some split =>
        obtain ⟨parent, name⟩ := split
        obtain ⟨parentNode, hparent, h⟩ := Except.bind_eq_ok_iff.mp h
        have hpath : path = .rootDir :: (parent ++ [.normal name]) := by
          unfold cleanPath at hcleaned
          split_ifs at hcleaned with habsolute
          cases hcleaned
          rw [← parentAndName_eq_some_iff.mp hsplit]
          cases path with
          | nil => contradiction
          | cons first rest => simpa [Path.isAbsolute] using habsolute
        cases hlink : parentNode.getLink name with
        | none =>
            simp only [hlink] at h
            contradiction
        | some link =>
            cases link with
            | dir link secret =>
                simp only [hlink] at h
                contradiction
            | data link secret mime =>
                simp only [hlink] at h
                cases hblob : blobs link.hash with
                | none =>
                    simp only [hblob] at h
                    contradiction
                | some blob =>
                    simp only [hblob] at h
                    cases hdata : secret.decrypt blob with
                    | none =>
                        simp only [hdata] at h
                        contradiction
                    | some found =>
                        simp only [hdata] at h
                        cases h
                        refine ⟨parent, name, link, secret, mime, blob, hpath, ?_, hblob,
                          hdata⟩
                        rw [findLink_append_singleton, getParentNode_eq_ok_iff.mp hparent]
                        exact hlink
  · intro ⟨parent, name, link, secret, mime, blob, hpath, hlink, hblob, hdata⟩
    have hcleaned : cleanPath path = .ok (parent ++ [.normal name]) := by
      rw [hpath]
      rfl
    rw [findLink_append_singleton] at hlink
    obtain ⟨parentNode, hparent, hname⟩ := Option.bind_eq_some_iff.mp hlink
    simp only [hcleaned, parentAndName_eq_some_iff.mpr rfl,
      getParentNode_eq_ok_iff.mpr hparent, hname, hblob, hdata, bind, Except.bind]
    rfl

theorem cat_absPath {blobs : Blobs} {entry : Node} {names : List Name} {data : Bytes} :
    cat blobs entry (absPath names) = .ok data ↔
      ∃ link secret mime blob, findLink blobs entry names = some (.data link secret mime) ∧
        blobs link.hash = some blob ∧ secret.decrypt blob = some data := by
  rw [cat_eq_ok_iff]
  constructor
  · intro ⟨parent, name, link, secret, mime, blob, hpath, hlink, hblob, hdata⟩
    have hnames : parent.map Component.toName ++ [name] = names := by
      rw [← rootDir_relPath] at hpath
      rw [← map_toName_relPath names, (List.cons.inj hpath).2]
      simp [Component.toName]
    rw [hnames] at hlink
    exact ⟨link, secret, mime, blob, hlink, hblob, hdata⟩
  · intro ⟨link, secret, mime, blob, hlink, hblob, hdata⟩
    have hnames : names ≠ [] := by
      rintro rfl
      contradiction
    obtain ⟨parents, name, rfl⟩ := (List.eq_nil_or_concat names).resolve_left hnames
    rw [List.concat_eq_append] at hlink ⊢
    refine ⟨relPath parents, name, link, secret, mime, blob, ?_, ?_, hblob, hdata⟩
    · rw [← rootDir_relPath, relPath_append]
      rfl
    · rw [map_toName_relPath]
      exact hlink

theorem getNodeAtPathFrom_error {blobs : Blobs} {consumed : Path} {node : Node}
    {path : Path} {fault : Fault}
    (h : getNodeAtPathFrom blobs consumed node path = .error fault) :
    ∃ error, fault = .error error := by
  induction path generalizing consumed node with
  | nil => contradiction
  | cons part rest ih =>
      rw [getNodeAtPathFrom] at h
      cases hlink : node.getLink part.toName with
      | none =>
          simp only [hlink] at h
          cases h
          exact ⟨_, rfl⟩
      | some link =>
          simp only [hlink] at h
          cases hload : getNodeFromBlobs blobs link with
          | error fault' =>
              simp only [hload] at h
              cases h
              obtain ⟨error, rfl, -⟩ := getNodeFromBlobs_error hload
              exact ⟨error, rfl⟩
          | ok next =>
              simp only [hload] at h
              exact ih h

/-- A listing needs a node at the path. -/
theorem ls_absPath (blobs : Blobs) (entry : Node) (names : List Name) :
    (∃ node, walkNode blobs entry names = some node ∧ ls blobs entry (absPath names) =
      .ok (node.links.toList.foldl (fun items item =>
        items.put (relPath names ++ [.normal item.1]) item.2) KeyedMap.empty)) ∨
    (walkNode blobs entry names = none ∧
      ∃ fault, ls blobs entry (absPath names) = .error fault) := by
  unfold ls
  rw [cleanPath_absPath]
  simp only [bind, Except.bind]
  cases names with
  | nil => exact Or.inl ⟨entry, rfl, rfl⟩
  | cons first rest =>
      rw [if_neg (by simp)]
      cases hread : getNodeAtPath blobs entry (relPath (first :: rest)) with
      | ok node =>
          left
          exact ⟨node, getNodeAtPathFrom_eq_ok_iff.mp hread, rfl⟩
      | error fault =>
          right
          obtain ⟨error, rfl⟩ := getNodeAtPathFrom_error hread
          refine ⟨walkNode_eq_none_of_error hread, ?_⟩
          cases error <;> exact ⟨_, rfl⟩

/-- A tree that has the files of another one can be read as far as that one. -/
theorem cat_of_files {blobs blobs' : Blobs} {entry entry' : Node}
    (hblobs : ∀ hash data, blobs hash = some data → blobs' hash = some data)
    (hfiles : ∀ names link, findLink blobs entry names = some link → link.isDir = false →
      findLink blobs' entry' names = some link) {path : Path} {data : Bytes}
    (h : cat blobs entry path = .ok data) : cat blobs' entry' path = .ok data := by
  obtain ⟨parent, name, link, secret, mime, blob, hpath, hlink, hblob, hdata⟩ :=
    cat_eq_ok_iff.mp h
  exact cat_eq_ok_iff.mpr ⟨parent, name, link, secret, mime, blob, hpath,
    hfiles _ _ hlink rfl, hblobs _ _ hblob, hdata⟩

end

end JaxFs

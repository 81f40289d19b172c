import JaxFs.AbsolutePaths
import JaxFs.PinsCover

/-!
# Exports

An export writes what a deep listing of the root shows, each item under its path joined to
a target directory.  The names that the operations take from a path are single components,
and so the paths of such a tree stay beneath the target.  A file whose bytes are a node can
have any names in it: `rm` and `mv` go through it as through a directory and store the node
anew.
-/

namespace JaxFs

/-! ## Lexical paths -/

/-- A step of the lexical resolution; nothing is above the root. -/
def Path.lexicalStep (resolved : Path) : Component → Path
  | .rootDir => [.rootDir]
  | .curDir => resolved
  | .normal name => resolved ++ [.normal name]
  | .parentDir =>
      match resolved.getLast? with
      | some (.normal _) => resolved.dropLast
      | some .rootDir => resolved
      | _ => resolved ++ [.parentDir]

/-- The path without `.` and `..`, as far as the parts alone tell. -/
def Path.lexical (path : Path) : Path := path.foldl Path.lexicalStep []

def Beneath (targetDir path : Path) : Prop := targetDir.lexical <+: path.lexical

instance (targetDir path : Path) : Decidable (Beneath targetDir path) :=
  inferInstanceAs (Decidable (_ <+: _))

theorem foldl_lexicalStep_relPath (names : List Name) (resolved : Path) :
    (relPath names).foldl Path.lexicalStep resolved = resolved ++ relPath names := by
  induction names generalizing resolved with
  | nil => simp
  | cons name rest ih =>
      rw [relPath_cons, List.foldl_cons, ih]
      simp [Path.lexicalStep]

theorem beneath_append (targetDir : Path) (names : List Name) :
    Beneath targetDir (targetDir ++ relPath names) := by
  refine ⟨relPath names, ?_⟩
  unfold Path.lexical
  rw [List.foldl_append, foldl_lexicalStep_relPath]

theorem parent_append_relPath (targetDir : Path) {names : List Name} (h : names ≠ []) :
    (targetDir ++ relPath names).parent = some (targetDir ++ relPath names.dropLast) := by
  obtain ⟨front, last, rfl⟩ := (List.eq_nil_or_concat names).resolve_left h
  rw [List.concat_eq_append, List.dropLast_concat, relPath_append, ← List.append_assoc]
  simp [Path.parent]

section

variable [P : Primitives]

/-! ## The export -/

/-- `extract_plaintext_hash`: the header of the plaintext, not compared with it. -/
def Secret.extractPlaintextHash (secret : Secret) (data : Bytes) : Option Bytes :=
  if data.length < nonceSize then none
  else
    match P.aeadDecrypt secret (data.take nonceSize) (data.drop nonceSize) with
    | none => none
    | some decrypted =>
        if decrypted.length < blake3HashSize then none
        else some (decrypted.take blake3HashSize)

/-- The calls of `std::fs` that an export makes. -/
inductive FsCall where
  | createDirAll (path : Path)
  | write (path : Path) (data : Bytes)
  deriving DecidableEq

def FsCall.path : FsCall → Path
  | .createDirAll path => path
  | .write path _ => path

/-- The file system may refuse a call, after the calls made before it. -/
abbrev FileSystem := List FsCall → FsCall → Bool

inductive ExportError where
  | mount (fault : Fault)
  | io
  | blobStore
  | decryption

structure ExportState where
  calls : List FsCall
  hashMap : FinMap Path (Hash × Bytes)
  filesExported : ℕ

abbrev ExportM := EStateM ExportError ExportState

def callFs (refuses : FileSystem) (call : FsCall) : ExportM Unit := fun state =>
  let called := { state with calls := state.calls ++ [call] }
  if refuses state.calls call then .error .io called else .ok () called

/-- `create_dir_all` of the parent, when the path has one. -/
def createParent (refuses : FileSystem) (targetPath : Path) : ExportM Unit :=
  match targetPath.parent with
  | some parent => callFs refuses (.createDirAll parent)
  | none => pure ()

/-- The blob of a file, decrypted, with the header of its plaintext. -/
def readExported (blobs : Blobs) (link : Link) (secret : Secret) :
    Except ExportError (Bytes × Bytes) :=
  match blobs link.hash with
  | none => .error .blobStore
  | some encryptedData =>
      match secret.extractPlaintextHash encryptedData with
      | none => .error .decryption
      | some plaintextHash =>
          match secret.decrypt encryptedData with
          | none => .error .decryption
          | some decryptedData => .ok (plaintextHash, decryptedData)

def ExportState.exported (state : ExportState) (path : Path) (hash : Hash)
    (plaintextHash : Bytes) : ExportState :=
  { state with
    hashMap := state.hashMap.put path (hash, plaintextHash)
    filesExported := state.filesExported + 1 }

/-- One round of the loop of `export_mount_to_filesystem`. -/
def exportItem (refuses : FileSystem) (blobs : Blobs) (targetDir path : Path) :
    NodeLink → ExportM Unit
  | .data link secret _ => do
      let targetPath := targetDir.joinPath path
      createParent refuses targetPath
      let (plaintextHash, decryptedData) ← EStateM.ofExcept (readExported blobs link secret)
      callFs refuses (.write targetPath decryptedData)
      modify (fun state => state.exported path link.hash plaintextHash)
  | .dir _ _ => callFs refuses (.createDirAll (targetDir.joinPath path))

def exportItems (refuses : FileSystem) (blobs : Blobs) (targetDir : Path) :
    List (Path × NodeLink) → ExportM Unit
  | [] => pure ()
  | (path, link) :: rest => do
      exportItem refuses blobs targetDir path link
      exportItems refuses blobs targetDir rest

/-- `export_mount_to_filesystem`; the fuel is that of the listing. -/
def exportMountToFilesystem (refuses : FileSystem) (fuel : ℕ) (state : MountState)
    (targetDir : Path) : ExportM ℕ := do
  let items ← EStateM.ofExcept
    ((Mount.lsDeep fuel state.world.blobs state.inner.entry [.rootDir]).mapError .mount)
  exportItems refuses state.world.blobs targetDir items.toList
  let last ← getThe ExportState
  pure last.filesExported

/-! ## Trees with plain names -/

/-- The name is a single component; an empty one is a directory, left by a `..`. -/
def Tidy : EntryProp := fun _ _ name link => ValidName name ∨ (name = [] ∧ link.isDir = true)

theorem tidyRules : EntryRules Tidy ValidName where
  grows := fun h _ _ => h
  file := fun hname _ _ => Or.inl hname
  dir := fun hname _ _ => hname.imp_right (fun hempty => ⟨hempty, rfl⟩)
  move := fun hname _ => Or.inl hname

omit P in
theorem AbsolutePath.namedBy (p : AbsolutePath) : NamedBy ValidName p.path := by
  intro name hname
  rcases List.mem_cons.mp hname with hroot | hmem
  · cases hroot
  · rcases p.wellFormed _ hmem with hparent | ⟨other, hother, hvalid⟩
    · cases hparent
    · cases hother
      exact hvalid

/-- What a call does to the mount; a read does nothing. -/
def MountCall.perform : MountCall → MountM Unit
  | .get _ | .cat _ | .ls _ | .lsDeep _ => pure ()
  | .add p data => JaxFs.add p.path data
  | .rm p => JaxFs.rm p.path
  | .mkdir p => JaxFs.mkdir p.path
  | .mv source target => JaxFs.mv source.path target.path

/-- The mount after a call, whatever its result. -/
def MountCall.after (state : MountState) (call : MountCall) : MountState :=
  (call.perform.run state).state

/-- An entry that is taken out has only directories above it. -/
def MountCall.TakesFromDirs (state : MountState) : MountCall → Prop
  | .rm p | .mv p _ => ParentThroughDirs state.world.blobs state.inner.entry p.path
  | _ => True

theorem tidy_after [LawfulPrimitives] {state : MountState} (h : MountOf Tidy state)
    {call : MountCall} (hdirs : call.TakesFromDirs state) :
    MountOf Tidy (call.after state) := by
  cases call with
  | get p | cat p | ls p | lsDeep p => exact h
  | add p data => exact mountOf_add tidyRules h p.namedBy data
  | rm p => exact mountOf_rm tidyRules.toRewriteRules h p.namedBy hdirs
  | mkdir p => exact mountOf_mkdir tidyRules.toRewriteRules h p.namedBy
  | mv source target =>
      exact mountOf_mv tidyRules.toRewriteRules h source.namedBy target.namedBy hdirs

theorem tidy_run [LawfulPrimitives] {state : MountState}
    (hfresh : state.inner.entry = Node.default) {calls : List MountCall}
    (hdirs : AlongRun MountCall.after MountCall.TakesFromDirs state calls) :
    MountOf Tidy (calls.foldl MountCall.after state) := by
  have hstart : MountOf Tidy state := by
    unfold MountOf
    rw [hfresh]
    exact treeOf_default _ _ _
  apply AlongRun.invariant _ hstart hdirs
  intro state' call h hcall
  exact tidy_after h hcall

/-! ## What is listed -/

/-- A path of single components, and not the root when it is a file. -/
def ItemBelow (item : Path × NodeLink) : Prop :=
  ∃ names, item.1 = relPath names ∧ (∀ name ∈ names, ValidName name) ∧
    (item.2.isDir = true ∨ names ≠ [])

theorem loadNode_of_walkNode_concat {blobs : Blobs} {entry node child : Node}
    {names : List Name} {name : Name} {link : NodeLink}
    (hnode : walkNode blobs entry names = some node) (hlink : node.getLink name = some link)
    (hchild : walkNode blobs entry (names ++ [name]) = some child) :
    loadNode blobs link = some child := by
  rw [walkNode_append, hnode, Option.bind_some, walkNode, hlink, Option.bind_some] at hchild
  obtain ⟨loaded, hload, hsame⟩ := Option.bind_eq_some_iff.mp hchild
  cases hsame
  exact hload

theorem itemBelow_of_lsDeep {blobs : Blobs} {pins : Pins} {entry : Node} {fuel : ℕ}
    {items : FinMap Path NodeLink} (h : TreeOf Tidy blobs pins entry)
    (hlist : Mount.lsDeep fuel blobs entry [.rootDir] = .ok items) :
    ∀ item ∈ items, ItemBelow item := by
  let inv : List Name → Node → Prop := fun names node =>
    (∀ name ∈ names, ValidName name) ∧ TreeOf Tidy blobs pins node
  have hroot : inv [] entry := ⟨fun _ hname => absurd hname List.not_mem_nil, h⟩
  refine Mount.forall_lsDeep ?_ hroot hlist
  intro names node hnode ⟨hnames, htree⟩ name link hlink
  rcases (htree.linkOf hlink).self with hvalid | ⟨rfl, hdir⟩
  · have hpush : (relPath names).push name = relPath (names ++ [name]) := by
      rw [hvalid.push, relPath_append]
      rfl
    have hnames' : ∀ other ∈ names ++ [name], ValidName other := by
      intro other hother
      rcases List.mem_append.mp hother with hfront | hlast
      · exact hnames other hfront
      · rw [List.mem_singleton.mp hlast]
        exact hvalid
    refine ⟨⟨names ++ [name], hpush, hnames', Or.inr (by simp)⟩, ?_⟩
    intro hdir
    refine ⟨names ++ [name], hpush, ?_⟩
    intro child hchild
    exact ⟨hnames', htree.of_childDir hlink hdir (loadNode_of_walkNode_concat hnode hlink hchild)⟩
  · refine ⟨⟨names, Path.push_nil _, hnames, Or.inl hdir⟩, ?_⟩
    intro _
    refine ⟨names, Path.push_nil _, ?_⟩
    intro child hchild
    rw [hnode] at hchild
    cases hchild
    exact ⟨hnames, htree⟩

/-! ## What is written -/

section

variable (refuses : FileSystem) (targetDir : Path)

/-- The later calls are for paths beneath the target. -/
def CallsBeneath (state state' : ExportState) : Prop :=
  ∀ call ∈ state'.calls, call ∈ state.calls ∨ Beneath targetDir call.path

omit P in
theorem CallsBeneath.trans (state state' state'' : ExportState)
    (h : CallsBeneath targetDir state state') (h' : CallsBeneath targetDir state' state'') :
    CallsBeneath targetDir state state'' := by
  intro call hcall
  rcases h' call hcall with hmid | hbeneath
  · exact h call hmid
  · exact Or.inr hbeneath

omit P in
theorem CallsBeneath.refl (state : ExportState) : CallsBeneath targetDir state state :=
  fun _ hcall => Or.inl hcall

omit P in
theorem callsBeneath_callFs {call : FsCall} (h : Beneath targetDir call.path) :
    EStateM.Preserves (CallsBeneath targetDir) (callFs refuses call) := by
  intro state made hmade
  have hcalls : ((callFs refuses call).run state).state.calls = state.calls ++ [call] := by
    unfold callFs EStateM.run
    dsimp only
    split_ifs <;> rfl
  rw [hcalls] at hmade
  rcases List.mem_append.mp hmade with hold | hnew
  · exact Or.inl hold
  · rw [List.mem_singleton.mp hnew]
    exact Or.inr h

theorem callsBeneath_exportItem (blobs : Blobs) {path : Path} {link : NodeLink}
    (h : ItemBelow (path, link)) :
    EStateM.Preserves (CallsBeneath targetDir) (exportItem refuses blobs targetDir path link) := by
  obtain ⟨names, hpath, -, hfile⟩ := h
  have htarget : targetDir.joinPath path = targetDir ++ relPath names := by
    rw [show path = relPath names from hpath, joinPath_relPath]
  have hbind : ∀ {α β : Type} {x : ExportM α} {f : α → ExportM β},
      EStateM.Preserves (CallsBeneath targetDir) x →
      (∀ a, EStateM.Preserves (CallsBeneath targetDir) (f a)) →
      EStateM.Preserves (CallsBeneath targetDir) (x >>= f) :=
    EStateM.Preserves.bind (CallsBeneath.trans targetDir)
  cases link with
  | dir link secret =>
      unfold exportItem
      rw [htarget]
      exact callsBeneath_callFs refuses targetDir (beneath_append targetDir names)
  | data link secret mime =>
      have hne : names ≠ [] := hfile.resolve_left (by simp [NodeLink.isDir])
      unfold exportItem
      dsimp only
      rw [htarget]
      apply hbind
      · unfold createParent
        rw [parent_append_relPath targetDir hne]
        exact callsBeneath_callFs refuses targetDir (beneath_append targetDir _)
      · intro _
        apply hbind (EStateM.Preserves.ofExcept (CallsBeneath.refl targetDir) _)
        intro read
        apply hbind
        · exact callsBeneath_callFs refuses targetDir (beneath_append targetDir names)
        · intro _ state
          exact CallsBeneath.refl targetDir state

theorem callsBeneath_exportItems (blobs : Blobs) {items : List (Path × NodeLink)}
    (h : ∀ item ∈ items, ItemBelow item) :
    EStateM.Preserves (CallsBeneath targetDir) (exportItems refuses blobs targetDir items) := by
  induction items with
  | nil => exact EStateM.Preserves.pure (CallsBeneath.refl targetDir) ()
  | cons first rest ih =>
      obtain ⟨path, link⟩ := first
      unfold exportItems
      apply EStateM.Preserves.bind (CallsBeneath.trans targetDir)
      · exact callsBeneath_exportItem refuses targetDir blobs (h _ List.mem_cons_self)
      · intro _
        exact ih (fun item hitem => h item (List.mem_cons_of_mem _ hitem))

theorem callsBeneath_exportMountToFilesystem {state : MountState} (h : MountOf Tidy state)
    (fuel : ℕ) : EStateM.Preserves (CallsBeneath targetDir)
      (exportMountToFilesystem refuses fuel state targetDir) := by
  intro before
  unfold exportMountToFilesystem
  cases hlist : Mount.lsDeep fuel state.world.blobs state.inner.entry [.rootDir] with
  | error fault => exact CallsBeneath.refl targetDir before
  | ok items =>
      have hitems := itemBelow_of_lsDeep h hlist
      have hwritten := callsBeneath_exportItems refuses targetDir state.world.blobs hitems before
      have hread : (EStateM.ofExcept (Except.mapError ExportError.mount (.ok items)) :
          ExportM (FinMap Path NodeLink)).run before = .ok items before := rfl
      rw [EStateM.run_bind_of_ok hread]
      apply EStateM.state_bind
      · intro fault after hrun
        rw [hrun] at hwritten
        exact hwritten
      · intro _ after hrun
        rw [hrun] at hwritten
        exact hwritten

/-- Everything that an export writes is beneath its target when the entries that were
removed and moved had only directories above them. -/
theorem export_stays_beneath [LawfulPrimitives] {state : MountState}
    (hfresh : state.inner.entry = Node.default) {calls : List MountCall}
    (hdirs : AlongRun MountCall.after MountCall.TakesFromDirs state calls)
    (fuel : ℕ) (hashMap : FinMap Path (Hash × Bytes)) :
    ∀ call ∈ ((exportMountToFilesystem refuses fuel (calls.foldl MountCall.after state)
      targetDir).run ⟨[], hashMap, 0⟩).state.calls, Beneath targetDir call.path := by
  intro call hcall
  have hbeneath := callsBeneath_exportMountToFilesystem refuses targetDir
    (tidy_run hfresh hdirs) fuel ⟨[], hashMap, 0⟩ call hcall
  exact hbeneath.resolve_left List.not_mem_nil

end

end

namespace Reference

/-- The file system refuses nothing. -/
def accepting : FileSystem := fun _ _ => false

def outDir : Path := absPath ["srv".toList, "out".toList]

/-- What an export of the mount into `outDir` calls. -/
def exportCalls (state : MountState) : List FsCall :=
  ((exportMountToFilesystem accepting 5 state outDir).run ⟨[], KeyedMap.empty, 0⟩).state.calls

theorem movedDirectory_stays_beneath :
    exportCalls ([.add (AbsolutePath.parse "/a/f".toList) [1],
        .mv (AbsolutePath.parse "/a".toList) (AbsolutePath.parse "/b".toList)].foldl
          MountCall.after emptyMount) ≠ [] ∧
      ∀ call ∈ exportCalls ([.add (AbsolutePath.parse "/a/f".toList) [1],
        .mv (AbsolutePath.parse "/a".toList) (AbsolutePath.parse "/b".toList)].foldl
          MountCall.after emptyMount), Beneath outDir call.path := by
  constructor
  · decide +kernel
  · apply export_stays_beneath
    · rfl
    · exact ⟨trivial, parentThroughDirs_singleton _ _ "a".toList, trivial⟩

/-- The node has the file `/g` of a mount under two names, and one of them leads up. -/
def climbingNode : Node :=
  let state := ((add (absPath ["g".toList]) [1]).run emptyMount).state
  match get state.world.blobs state.inner.entry (absPath ["g".toList]) with
  | .ok link => (Node.default.insert "x".toList link).insert "../../evil".toList link
  | .error _ => Node.default

/-- The node is added as a file, and an entry of it removed. -/
def climbingCalls : List MountCall :=
  [.add (AbsolutePath.parse "/g".toList) [1],
    .add (AbsolutePath.parse "/f".toList) (nodeCode.encode climbingNode),
    .rm (AbsolutePath.parse "/f/x".toList)]

def evilPath : Path := outDir ++ [.normal "f".toList, .parentDir, .parentDir, .normal "evil".toList]

set_option maxRecDepth 100000 in
/-- The export of a mount that was fresh writes a file beside its target. -/
theorem climbingCalls_leave_target :
    emptyMount.inner.entry = Node.default ∧
      .write evilPath [1] ∈ exportCalls (climbingCalls.foldl MountCall.after emptyMount) ∧
      evilPath.lexical = absPath ["srv".toList, "evil".toList] ∧ ¬ Beneath outDir evilPath := by
  decide +kernel

end Reference

end JaxFs

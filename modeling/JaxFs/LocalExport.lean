import JaxFs.Export
import JaxFs.SubtreeListing
import JaxFs.TreeCopy

/-!
# Exports on a disk

`http_server/api/v0/bucket/export.rs`, with the disk that the calls of an export leave.
An export that succeeds has laid the tree of the mount over what was in its directory; the
files of the bucket that are no longer in the tree stay.  The hash map that it returns has
each file with the address of its blob and the hash of what was written.
-/

namespace JaxFs

/-! ## Disks -/

/-- The directories and files below the root of the local file system. -/
abbrev Disk := FileTree Name Bytes

/-- Where a process with the working directory finds the path, without symbolic links. -/
def Path.resolve (cwd : List Name) (path : Path) : List Name :=
  ((absPath cwd).joinPath path).lexical.tail.map Component.toName

def FsCall.on (cwd : List Name) : FsCall → TreeCall Name Bytes
  | .createDirAll path => .createDirAll (path.resolve cwd)
  | .write path data => .write (path.resolve cwd) data

/-- Whether the call succeeds, and the disk after it.  A call may also fail for reasons
that the disk does not show, after the given number of steps. -/
def Disk.make (disk : Disk) (call : TreeCall Name Bytes) : Option ℕ → Bool × Disk
  | none =>
      match disk.perform call with
      | some disk' => (true, disk')
      | none => (false, disk)
  | some steps => (false, (disk.perform (call.stopped steps)).getD disk)

/-- A process with its disk.  The faults say which of its calls fail otherwise. -/
structure LocalFs where
  cwd : List Name
  disk : Disk
  faults : ℕ → Option ℕ

namespace LocalFs

def makeAll (fs : LocalFs) : ℕ → Disk → List FsCall → Disk
  | _, disk, [] => disk
  | made, disk, call :: rest =>
      fs.makeAll (made + 1) (disk.make (call.on fs.cwd) (fs.faults made)).2 rest

/-- The disk after the calls, whether they succeed or not. -/
def after (fs : LocalFs) (calls : List FsCall) : Disk := fs.makeAll 0 fs.disk calls

def refuses (fs : LocalFs) : FileSystem := fun done call =>
  !((fs.after done).make (call.on fs.cwd) (fs.faults done.length)).1

theorem makeAll_append (fs : LocalFs) (made : ℕ) (disk : Disk) (calls more : List FsCall) :
    fs.makeAll made disk (calls ++ more) =
      fs.makeAll (made + calls.length) (fs.makeAll made disk calls) more := by
  induction calls generalizing made disk with
  | nil => rfl
  | cons call rest ih =>
      rw [List.cons_append, makeAll, ih, makeAll, List.length_cons]
      congr 1
      omega

theorem after_concat (fs : LocalFs) (done : List FsCall) (call : FsCall) :
    fs.after (done ++ [call]) =
      ((fs.after done).make (call.on fs.cwd) (fs.faults done.length)).2 := by
  unfold after
  rw [makeAll_append, Nat.zero_add]
  rfl

end LocalFs

/-! ## Calls that are accepted -/

/-- None of the calls is refused, each after those before it. -/
def Accepts (refuses : FileSystem) : List FsCall → List FsCall → Prop
  | _, [] => True
  | done, call :: rest => refuses done call = false ∧ Accepts refuses (done ++ [call]) rest

theorem accepts_append {refuses : FileSystem} {done calls more : List FsCall} :
    Accepts refuses done (calls ++ more) ↔
      Accepts refuses done calls ∧ Accepts refuses (done ++ calls) more := by
  induction calls generalizing done with
  | nil => simp [Accepts]
  | cons call rest ih => simp [Accepts, ih, and_assoc]

theorem Disk.make_eq_true {disk : Disk} {call : TreeCall Name Bytes} {stop : Option ℕ}
    (h : (disk.make call stop).1 = true) :
    disk.perform call = some (disk.make call stop).2 := by
  cases stop with
  | none =>
      unfold Disk.make at h ⊢
      cases hcall : disk.perform call with
      | none => simp [hcall] at h
      | some disk' => rfl
  | some steps => simp [Disk.make] at h

/-- Calls that are accepted do on the disk what they say. -/
theorem LocalFs.performAll_of_accepts (fs : LocalFs) {done calls : List FsCall}
    (h : Accepts fs.refuses done calls) :
    (fs.after done).performAll (calls.map (FsCall.on fs.cwd)) =
      some (fs.after (done ++ calls)) := by
  induction calls generalizing done with
  | nil => simp
  | cons call rest ih =>
      have haccepted : ((fs.after done).make (call.on fs.cwd)
          (fs.faults done.length)).1 = true := by
        simpa [LocalFs.refuses] using h.1
      have hmade := Disk.make_eq_true haccepted
      rw [← LocalFs.after_concat] at hmade
      rw [List.map_cons, FileTree.performAll_cons, hmade, Option.bind_some, ih h.2,
        List.append_assoc, List.singleton_append]

/-- Without faults the disk decides. -/
theorem LocalFs.accepts_of_performAll {fs : LocalFs} (hfaults : ∀ made, fs.faults made = none)
    {done calls : List FsCall} {disk' : Disk}
    (h : (fs.after done).performAll (calls.map (FsCall.on fs.cwd)) = some disk') :
    Accepts fs.refuses done calls := by
  induction calls generalizing done with
  | nil => trivial
  | cons call rest ih =>
      rw [List.map_cons, FileTree.performAll_cons] at h
      obtain ⟨mid, hmid, hrest⟩ := Option.bind_eq_some_iff.mp h
      have hmake : (fs.after done).make (call.on fs.cwd) (fs.faults done.length) =
          (true, mid) := by
        rw [hfaults]
        simp [Disk.make, hmid]
      constructor
      · simp [LocalFs.refuses, hmake]
      · apply ih
        rw [LocalFs.after_concat, hmake]
        exact hrest

/-! ## Paths below a directory -/

theorem lexical_append_relPath (path : Path) (names : List Name) :
    (path ++ relPath names).lexical = path.lexical ++ relPath names := by
  unfold Path.lexical
  rw [List.foldl_append, foldl_lexicalStep_relPath]

/-- Nothing takes the root away. -/
theorem lexicalStep_ne_nil {resolved : Path} (h : resolved.head? = some .rootDir)
    (part : Component) : (Path.lexicalStep resolved part).head? = some .rootDir := by
  cases part with
  | rootDir => rfl
  | curDir => exact h
  | normal name =>
      cases resolved with
      | nil => simp at h
      | cons first rest => exact h
  | parentDir =>
      unfold Path.lexicalStep
      dsimp only
      cases hlast : resolved.getLast? with
      | none => simp_all
      | some last =>
          cases last with
          | rootDir => exact h
          | curDir | parentDir =>
              cases resolved with
              | nil => simp at h
              | cons first rest => exact h
          | normal name =>
              cases resolved with
              | nil => simp at h
              | cons first rest =>
                  cases rest with
                  | nil => simp_all
                  | cons second rest => simpa using h

theorem lexical_head {path : Path} (h : path.isAbsolute = true) :
    path.lexical.head? = some .rootDir := by
  have hfold : ∀ (parts resolved : Path), resolved.head? = some .rootDir →
      (parts.foldl Path.lexicalStep resolved).head? = some .rootDir := by
    intro parts
    induction parts with
    | nil => exact fun _ hresolved => hresolved
    | cons part rest ih => exact fun _ hresolved => ih _ (lexicalStep_ne_nil hresolved part)
  cases path with
  | nil => simp [Path.isAbsolute] at h
  | cons first rest =>
      have hfirst : first = .rootDir := by simpa [Path.isAbsolute] using h
      rw [hfirst]
      exact hfold rest _ rfl

theorem isAbsolute_joinPath (cwd : List Name) (path : Path) :
    ((absPath cwd).joinPath path).isAbsolute = true := by
  unfold Path.joinPath
  by_cases h : path.isAbsolute = true
  · rw [if_pos (Or.inl h)]
    exact h
  · rw [if_neg (by simp [h, absPath])]
    rfl

theorem joinPath_append_relPath {base : Path} (hbase : base ≠ []) (path : Path)
    (names : List Name) : base.joinPath (path ++ relPath names) =
      base.joinPath path ++ relPath names := by
  cases path with
  | nil =>
      rw [List.nil_append, joinPath_relPath]
      simp [Path.joinPath, Path.isAbsolute, hbase]
  | cons first rest =>
      have hkept : (relPath names).filter (fun part => decide (part ≠ .curDir)) =
          relPath names := by
        apply List.filter_eq_self.mpr
        intro part hpart
        obtain ⟨name, -, rfl⟩ := List.mem_map.mp hpart
        simp
      unfold Path.joinPath
      rw [List.filter_append, hkept, List.cons_append]
      have hsame : Path.isAbsolute (first :: (rest ++ relPath names)) =
          Path.isAbsolute (first :: rest) := rfl
      rw [hsame]
      split_ifs
      · rfl
      · rw [List.append_assoc]

theorem resolve_append (cwd : List Name) (path : Path) (names : List Name) :
    (path ++ relPath names).resolve cwd = path.resolve cwd ++ names := by
  have hhead := lexical_head (isAbsolute_joinPath cwd path)
  unfold Path.resolve
  rw [joinPath_append_relPath (by simp [absPath]), lexical_append_relPath]
  cases hlexical : ((absPath cwd).joinPath path).lexical with
  | nil => simp [hlexical] at hhead
  | cons first rest =>
      rw [List.cons_append, List.tail_cons, List.tail_cons, List.map_append,
        map_toName_relPath]

section

variable [P : Primitives]

/-! ## The calls of an export -/

/-- The calls for an item, when its blob can be read. -/
def itemCalls (blobs : Blobs) (targetDir : Path) : Path × NodeLink → Option (List FsCall)
  | (path, .data link secret _) =>
      (readExported blobs link secret).toOption.map (fun read =>
        (targetDir.joinPath path).parent.toList.map FsCall.createDirAll ++
          [.write (targetDir.joinPath path) read.2])
  | (path, .dir _ _) => some [.createDirAll (targetDir.joinPath path)]

/-- The entry of the hash map for an item. -/
def hashEntry (blobs : Blobs) : Path × NodeLink → Option (Path × (Hash × Bytes))
  | (path, .data link secret _) =>
      (readExported blobs link secret).toOption.map (fun read => (path, (link.hash, read.1)))
  | (_, .dir _ _) => none

def ExportState.grown (state : ExportState) (calls : List FsCall)
    (entries : List (Path × (Hash × Bytes))) : ExportState where
  calls := state.calls ++ calls
  hashMap := entries.foldl (fun map entry => map.put entry.1 entry.2) state.hashMap
  filesExported := state.filesExported + entries.length

def exportCalls (blobs : Blobs) (targetDir : Path) (items : List (Path × NodeLink)) :
    List FsCall :=
  items.flatMap (fun item => (itemCalls blobs targetDir item).getD [])

section

variable {refuses : FileSystem} {blobs : Blobs} {targetDir : Path} {state state' : ExportState}

omit P in
theorem ExportState.grown_nil (state : ExportState) : state.grown [] [] = state := by
  simp [ExportState.grown]

omit P in
theorem ExportState.grown_grown (state : ExportState) (calls more : List FsCall)
    (entries others : List (Path × (Hash × Bytes))) :
    (state.grown calls entries).grown more others =
      state.grown (calls ++ more) (entries ++ others) := by
  simp [ExportState.grown, Nat.add_assoc]

omit P in
theorem callFs_ok_iff {call : FsCall} {u : Unit} :
    (callFs refuses call).run state = .ok u state' ↔
      Accepts refuses state.calls [call] ∧ state' = state.grown [call] [] := by
  unfold callFs EStateM.run Accepts
  dsimp only
  cases hrefuses : refuses state.calls call with
  | true => simp
  | false => simp [Accepts, ExportState.grown, eq_comm]

omit P in
theorem createParent_ok_iff {path : Path} {u : Unit} :
    (createParent refuses path).run state = .ok u state' ↔
      Accepts refuses state.calls (path.parent.toList.map FsCall.createDirAll) ∧
        state' = state.grown (path.parent.toList.map FsCall.createDirAll) [] := by
  unfold createParent
  cases path.parent with
  | none => simp [Accepts, ExportState.grown_nil, eq_comm]
  | some parent => exact callFs_ok_iff

theorem exportItem_ok_iff {path : Path} {link : NodeLink} {u : Unit} :
    (exportItem refuses blobs targetDir path link).run state = .ok u state' ↔
      ∃ calls, itemCalls blobs targetDir (path, link) = some calls ∧
        Accepts refuses state.calls calls ∧
        state' = state.grown calls (hashEntry blobs (path, link)).toList := by
  cases link with
  | dir link secret =>
      unfold exportItem itemCalls hashEntry
      rw [callFs_ok_iff]
      simp
  | data link secret mime =>
      unfold exportItem itemCalls hashEntry
      dsimp only
      generalize hcreated :
        (targetDir.joinPath path).parent.toList.map FsCall.createDirAll = created
      cases hread : readExported blobs link secret with
      | error error =>
          simp only [EStateM.run_bind_eq_ok_iff, EStateM.run_ofExcept_eq_ok_iff]
          simp [Except.toOption]
      | ok read =>
          have hexported : ∀ call, ((state.grown created []).grown [call] []).exported path
              link.hash read.1 = state.grown (created ++ [call]) [(path, (link.hash, read.1))] :=
            fun call => by simp [ExportState.grown, ExportState.exported]
          have hmodify : ∀ before, (modify (fun state : ExportState =>
              state.exported path link.hash read.1) : ExportM Unit).run before =
                .ok () (before.exported path link.hash read.1) := fun before => rfl
          simp only [EStateM.run_bind_eq_ok_iff, createParent_ok_iff, hcreated,
            EStateM.run_ofExcept_eq_ok_iff, callFs_ok_iff, Except.toOption, Option.map_some,
            Option.some.injEq, Option.toList_some]
          constructor
          · rintro ⟨_, _, ⟨hparent, rfl⟩, read', _, ⟨hsame, rfl⟩, _, _, ⟨hwrite, rfl⟩, hlast⟩
            cases hsame
            rw [hmodify, hexported] at hlast
            cases hlast
            exact ⟨_, rfl, accepts_append.mpr ⟨hparent, hwrite⟩, rfl⟩
          · rintro ⟨calls, rfl, haccepts, rfl⟩
            obtain ⟨hparent, hwrite⟩ := accepts_append.mp haccepts
            refine ⟨(), _, ⟨hparent, rfl⟩, read, _, ⟨rfl, rfl⟩, (), _, ⟨hwrite, rfl⟩, ?_⟩
            rw [hmodify, hexported]

theorem exportItems_ok_iff {items : List (Path × NodeLink)} {u : Unit} :
    (exportItems refuses blobs targetDir items).run state = .ok u state' ↔
      (∀ item ∈ items, itemCalls blobs targetDir item ≠ none) ∧
        Accepts refuses state.calls (exportCalls blobs targetDir items) ∧
        state' = state.grown (exportCalls blobs targetDir items)
          (items.filterMap (hashEntry blobs)) := by
  induction items generalizing state with
  | nil =>
      simp [exportItems, exportCalls, Accepts, ExportState.grown_nil, eq_comm]
  | cons item rest ih =>
      obtain ⟨path, link⟩ := item
      have hentries : ((path, link) :: rest).filterMap (hashEntry blobs) =
          (hashEntry blobs (path, link)).toList ++ rest.filterMap (hashEntry blobs) := by
        cases hentry : hashEntry blobs (path, link) <;> simp [hentry]
      have hcalls : exportCalls blobs targetDir ((path, link) :: rest) =
          (itemCalls blobs targetDir (path, link)).getD [] ++
            exportCalls blobs targetDir rest := rfl
      unfold exportItems
      rw [EStateM.run_bind_eq_ok_iff, hentries, hcalls, accepts_append, List.forall_mem_cons]
      constructor
      · rintro ⟨_, mid, hitem, hrest⟩
        obtain ⟨calls, hsome, haccepts, rfl⟩ := exportItem_ok_iff.mp hitem
        obtain ⟨hreadable, haccepts', rfl⟩ := ih.mp hrest
        rw [hsome, Option.getD_some, ← ExportState.grown_grown]
        exact ⟨⟨by simp, hreadable⟩, ⟨haccepts, haccepts'⟩, rfl⟩
      · rintro ⟨⟨hsome, hreadable⟩, ⟨haccepts, haccepts'⟩, hstate⟩
        obtain ⟨calls, hfirst⟩ := Option.ne_none_iff_exists'.mp hsome
        rw [hfirst, Option.getD_some] at haccepts haccepts' hstate
        refine ⟨(), _, exportItem_ok_iff.mpr ⟨calls, hfirst, haccepts, rfl⟩, ih.mpr ?_⟩
        exact ⟨hreadable, haccepts', hstate.trans (ExportState.grown_grown ..).symm⟩

/-- What the handler does once the mount is loaded. -/
def exportInto (refuses : FileSystem) (fuel : ℕ) (mount : MountState) (targetDir : Path) :
    ExportM ℕ := do
  callFs refuses (.createDirAll targetDir)
  exportMountToFilesystem refuses fuel mount targetDir

/-- Nothing has been called and nothing exported. -/
def ExportState.start : ExportState := ⟨[], KeyedMap.empty, 0⟩

theorem exportInto_ok_iff {fuel : ℕ} {mount : MountState} {exported : ℕ} :
    (exportInto refuses fuel mount targetDir).run .start = .ok exported state' ↔
      ∃ items, Mount.lsDeep fuel mount.world.blobs mount.inner.entry [.rootDir] = .ok items ∧
        (∀ item ∈ items.toList, itemCalls mount.world.blobs targetDir item ≠ none) ∧
        Accepts refuses []
          (.createDirAll targetDir :: exportCalls mount.world.blobs targetDir items.toList) ∧
        state' = ExportState.start.grown
          (.createDirAll targetDir :: exportCalls mount.world.blobs targetDir items.toList)
          (items.toList.filterMap (hashEntry mount.world.blobs)) ∧
        exported = state'.filesExported := by
  unfold exportInto exportMountToFilesystem
  cases hlist : Mount.lsDeep fuel mount.world.blobs mount.inner.entry [.rootDir] with
  | error fault =>
      simp only [EStateM.run_bind_eq_ok_iff, EStateM.run_ofExcept_eq_ok_iff]
      simp [Except.mapError]
  | ok items =>
      have hlast : ∀ before : ExportState, ((do
          let last ← getThe ExportState
          pure last.filesExported : ExportM ℕ)).run before = .ok before.filesExported before :=
        fun before => rfl
      rw [EStateM.run_bind_eq_ok_iff]
      constructor
      · rintro ⟨_, mid, hdir, hrest⟩
        obtain ⟨haccepts, rfl⟩ := callFs_ok_iff.mp hdir
        obtain ⟨_, _, hitems, hrest⟩ := EStateM.run_bind_eq_ok_iff.mp hrest
        obtain ⟨hsame, rfl⟩ := EStateM.run_ofExcept_eq_ok_iff.mp hitems
        cases hsame
        obtain ⟨_, last, hcalls, hend⟩ := EStateM.run_bind_eq_ok_iff.mp hrest
        obtain ⟨hreadable, haccepts', rfl⟩ := exportItems_ok_iff.mp hcalls
        rw [hlast] at hend
        cases hend
        exact ⟨items, rfl, hreadable, ⟨haccepts.1, haccepts'⟩,
          ExportState.grown_grown .., rfl⟩
      · rintro ⟨_, hsame, hreadable, haccepts, hstate, rfl⟩
        cases hsame
        refine ⟨(), _, callFs_ok_iff.mpr ⟨⟨haccepts.1, trivial⟩, rfl⟩, ?_⟩
        have hitems : ∀ before : ExportState,
            (EStateM.ofExcept (Except.mapError ExportError.mount (.ok items)) :
              ExportM (FinMap Path NodeLink)).run before = .ok items before := fun _ => rfl
        rw [EStateM.run_bind_of_ok (hitems _)]
        have hcalls : (exportItems refuses mount.world.blobs targetDir items.toList).run
            (ExportState.start.grown [.createDirAll targetDir] []) = .ok () state' :=
          exportItems_ok_iff.mpr ⟨hreadable, haccepts.2, by
            rw [hstate, ExportState.grown_grown, List.singleton_append, List.nil_append]⟩
        rw [EStateM.run_bind_of_ok hcalls, hlast]

end

/-! ## What is to be written -/

theorem extractPlaintextHash_of_decrypt {secret : Secret} {blob data : Bytes}
    (h : secret.decrypt blob = some data) :
    secret.extractPlaintextHash blob = some (P.blake3 data) := by
  unfold Secret.decrypt at h
  unfold Secret.extractPlaintextHash
  split_ifs at h ⊢ with hnonce
  cases hdecrypted : P.aeadDecrypt secret (blob.take nonceSize) (blob.drop nonceSize) with
  | none => simp [hdecrypted] at h
  | some decrypted =>
      simp only [hdecrypted] at h ⊢
      split_ifs at h ⊢ with hheader hhash
      cases h
      simpa using hhash

/-- The header of a file that decrypts is the hash of what it decrypts to. -/
theorem toOption_readExported (blobs : Blobs) (link : Link) (secret : Secret) :
    (readExported blobs link secret).toOption =
      ((blobs link.hash).bind secret.decrypt).map (fun data => (P.blake3 data, data)) := by
  unfold readExported
  cases hblob : blobs link.hash with
  | none => rfl
  | some blob =>
      dsimp only
      rw [Option.bind_some]
      cases hdata : secret.decrypt blob with
      | none => cases secret.extractPlaintextHash blob <;> simp [Except.toOption]
      | some data => simp [extractPlaintextHash_of_decrypt hdata, Except.toOption]

/-- The entry of a local directory for a link. -/
def diskEntry (blobs : Blobs) : NodeLink → Option (TreeEntry Bytes)
  | .dir _ _ => some .dir
  | .data link secret _ => ((blobs link.hash).bind secret.decrypt).map .file

/-- What a mount has at a path, behind directories. -/
def contentsAt (blobs : Blobs) (entry : Node) : List Name → Option (TreeEntry Bytes)
  | [] => some .dir
  | name :: rest => (linkAt blobs entry (name :: rest)).bind (diskEntry blobs)

/-- The contents in a directory, and the directories above it. -/
def exportPlan (base : List Name) (contents : List Name → Option (TreeEntry Bytes))
    (place : List Name) : Option (TreeEntry Bytes) :=
  if base <+: place then contents (place.drop base.length)
  else if place <+: base then some .dir else none

/-- The calls for the item at a place. -/
def linkCalls (blobs : Blobs) (place : List Name) : NodeLink → List (TreeCall Name Bytes)
  | .dir _ _ => [.createDirAll place]
  | .data link secret _ =>
      match (blobs link.hash).bind secret.decrypt with
      | none => []
      | some data => [.createDirAll place.dropLast, .write place data]

section

variable {blobs : Blobs} {entry : Node} {names above : List Name} {link : NodeLink}
  {base : List Name} {cwd : List Name} {targetDir : Path}

theorem map_itemCalls (hnames : names ≠ []) :
    ((itemCalls blobs targetDir (relPath names, link)).getD []).map (FsCall.on cwd) =
      linkCalls blobs (targetDir.resolve cwd ++ names) link := by
  cases link with
  | dir link secret =>
      simp [itemCalls, linkCalls, FsCall.on, joinPath_relPath, resolve_append]
  | data link secret mime =>
      unfold itemCalls linkCalls
      dsimp only
      rw [toOption_readExported, joinPath_relPath, parent_append_relPath targetDir hnames]
      cases (blobs link.hash).bind secret.decrypt with
      | none => rfl
      | some data =>
          simp [FsCall.on, resolve_append, List.dropLast_append_of_ne_nil hnames]

theorem itemCalls_ne_none_iff {path : Path} :
    itemCalls blobs targetDir (path, link) ≠ none ↔ diskEntry blobs link ≠ none := by
  cases link with
  | dir link secret => simp [itemCalls, diskEntry]
  | data link secret mime =>
      unfold itemCalls diskEntry
      dsimp only
      rw [toOption_readExported]
      simp

theorem hashEntry_eq_some_iff {path other : Path} {hash : Hash} {plaintextHash : Bytes} :
    hashEntry blobs (path, link) = some (other, (hash, plaintextHash)) ↔
      other = path ∧ link.link.hash = hash ∧
        ∃ data, diskEntry blobs link = some (.file data) ∧ P.blake3 data = plaintextHash := by
  cases link with
  | dir link secret => simp [hashEntry, diskEntry]
  | data link secret mime =>
      unfold hashEntry diskEntry
      dsimp only
      rw [toOption_readExported]
      cases (blobs link.hash).bind secret.decrypt with
      | none => simp
      | some data => simp [NodeLink.link, eq_comm]

theorem contentsAt_of_ne_nil (hnames : names ≠ []) :
    contentsAt blobs entry names = (linkAt blobs entry names).bind (diskEntry blobs) := by
  cases names with
  | nil => contradiction
  | cons first rest => rfl

/-- What is above a link is a directory. -/
theorem contentsAt_above (hlink : linkAt blobs entry names = some link)
    (habove : above <+: names) (hne : above ≠ names) :
    contentsAt blobs entry above = some .dir := by
  obtain ⟨rest, rfl⟩ := habove
  have hrest : rest ≠ [] := by
    rintro rfl
    simp at hne
  induction above generalizing entry with
  | nil => rfl
  | cons first above ih =>
      rw [List.cons_append, linkAt_cons (by simp [hrest])] at hlink
      obtain ⟨child, hchild, hbelow⟩ := Option.bind_eq_some_iff.mp hlink
      obtain ⟨found, hfound, hdir⟩ := Option.bind_eq_some_iff.mp hchild
      have hshown := ih hbelow (by simpa using hrest)
      rw [contentsAt_of_ne_nil (by simp)]
      by_cases habove : above = []
      · subst habove
        obtain ⟨hisDir, -⟩ := dirNode_eq_some_iff.mp hdir
        have hself : linkAt blobs entry [first] = some found := hfound
        rw [hself, Option.bind_some]
        cases found with
        | dir link secret => rfl
        | data link secret mime => contradiction
      · rw [linkAt_cons habove, hchild, Option.bind_some, ← contentsAt_of_ne_nil habove]
        exact hshown

omit P in
theorem exportPlan_append (contents : List Name → Option (TreeEntry Bytes)) :
    exportPlan base contents (base ++ names) = contents names := by
  simp [exportPlan]

theorem exportPlan_above {place : List Name} (hplace : place <+: base) :
    exportPlan base (contentsAt blobs entry) place = some .dir := by
  unfold exportPlan
  split_ifs with hbelow
  · rw [List.drop_eq_nil_of_le hplace.length_le]
    rfl
  · rfl

/-- A path above that of a link is a directory of the plan. -/
theorem exportPlan_above_link (hlink : linkAt blobs entry names = some link)
    (habove : above <+: base ++ names) (hne : above ≠ base ++ names) :
    exportPlan base (contentsAt blobs entry) above = some .dir := by
  rcases List.prefix_or_prefix_of_prefix habove (List.prefix_append base names) with hpre | hpre
  · exact exportPlan_above hpre
  · obtain ⟨front, rfl⟩ := hpre
    rw [exportPlan_append]
    apply contentsAt_above hlink ((List.prefix_append_right_inj base).mp habove)
    rintro rfl
    exact hne rfl

theorem follows_linkCalls (hnames : names ≠ []) (hlink : linkAt blobs entry names = some link) :
    ∀ call ∈ linkCalls blobs (base ++ names) link,
      call.Follows (exportPlan base (contentsAt blobs entry)) := by
  have hself : exportPlan base (contentsAt blobs entry) (base ++ names) =
      diskEntry blobs link := by
    rw [exportPlan_append, contentsAt_of_ne_nil hnames, hlink, Option.bind_some]
  intro call hcall
  cases link with
  | dir link secret =>
      simp only [linkCalls, List.mem_singleton] at hcall
      subst hcall
      intro above habove
      by_cases hsame : above = base ++ names
      · rw [hsame, hself]
        rfl
      · exact exportPlan_above_link hlink habove hsame
  | data link secret mime =>
      unfold linkCalls at hcall
      cases hdata : (blobs link.hash).bind secret.decrypt with
      | none => simp [hdata] at hcall
      | some data =>
          simp only [hdata, List.mem_cons, List.not_mem_nil, or_false] at hcall
          rcases hcall with rfl | rfl
          · intro above habove
            have hlonger : (base ++ names).dropLast.length < (base ++ names).length := by
              have hpos := List.length_pos_of_ne_nil hnames
              rw [List.length_dropLast, List.length_append]
              omega
            apply exportPlan_above_link hlink (habove.trans (List.dropLast_prefix _))
            intro heq
            have hle := habove.length_le
            rw [heq] at hle
            omega
          · change exportPlan base (contentsAt blobs entry) (base ++ names) = _
            rw [hself]
            simp [diskEntry, hdata]

theorem prepared_linkCalls (hnames : names ≠ []) :
    TreeCall.Prepared (linkCalls blobs (base ++ names) link) := by
  intro front path contents back heq
  cases link with
  | dir link secret =>
      cases front with
      | nil => simp [linkCalls] at heq
      | cons call front => simp [linkCalls] at heq
  | data link secret mime =>
      unfold linkCalls at heq
      cases hdata : (blobs link.hash).bind secret.decrypt with
      | none => simp [hdata] at heq
      | some data =>
          simp only [hdata] at heq
          cases front with
          | nil => simp at heq
          | cons call front =>
              cases front with
              | nil =>
                  simp only [List.cons_append, List.nil_append, List.cons.injEq,
                    TreeCall.write.injEq] at heq
                  obtain ⟨rfl, ⟨rfl, -⟩, -⟩ := heq
                  simp [hnames]
              | cons other front => simp at heq

theorem exists_linkCalls_makes (hdisk : diskEntry blobs link ≠ none) (place : List Name) :
    ∃ call ∈ linkCalls blobs place link, call.Makes place := by
  cases link with
  | dir link secret => exact ⟨.createDirAll place, by simp [linkCalls], List.prefix_rfl⟩
  | data link secret mime =>
      unfold linkCalls
      cases hdata : (blobs link.hash).bind secret.decrypt with
      | none => simp [diskEntry, hdata] at hdisk
      | some data => exact ⟨.write place data, by simp [hdata], rfl⟩

/-! ## Listings of the root -/

theorem NormalTree.get?_lsDeep (htree : NormalTree blobs entry) {fuel : ℕ}
    {items : FinMap Path NodeLink} (hlist : Mount.lsDeep fuel blobs entry [.rootDir] = .ok items)
    {path : Path} : items.get? path = some link ↔
      ∃ names, names ≠ [] ∧ path = relPath names ∧ linkAt blobs entry names = some link :=
  htree.get?_lsDeepFrom (show dirAt blobs entry ([] ++ []) = some entry from rfl) hlist

theorem NormalTree.exists_lsDeep (htree : NormalTree blobs entry) :
    ∃ fuel items, ∀ fuel' ≥ fuel, Mount.lsDeep fuel' blobs entry [.rootDir] = .ok items := by
  have hloads := htree.walk_loads (show dirAt blobs entry [] = some entry from rfl)
  have hlisted : Mount.Listed blobs entry [] (absPath []) := Mount.listed_iff_loads.mpr hloads
  obtain ⟨fuel, items, hlist⟩ := hlisted
  have hfuel : Mount.lsDeepFrom blobs entry [] fuel (absPath []) ≠ .error .outOfFuel := by
    rw [hlist]
    simp
  exact ⟨fuel, items, fun fuel' hle => (Mount.lsDeepFrom_of_le hle hfuel).trans hlist⟩

/-- Each item of the listing has a path of names and the link that is there. -/
theorem NormalTree.mem_lsDeep (htree : NormalTree blobs entry) {fuel : ℕ}
    {items : FinMap Path NodeLink} (hlist : Mount.lsDeep fuel blobs entry [.rootDir] = .ok items)
    {item : Path × NodeLink} (hitem : item ∈ items.toList) :
    ∃ names, names ≠ [] ∧ item = (relPath names, item.2) ∧
      linkAt blobs entry names = some item.2 := by
  obtain ⟨names, hnames, hpath, hlink⟩ :=
    (htree.get?_lsDeep hlist).mp (FinMap.get?_eq_some_iff.mpr hitem)
  exact ⟨names, hnames, Prod.ext hpath rfl, hlink⟩

/-- The calls of an export are the plan of its tree. -/
theorem NormalTree.carries (htree : NormalTree blobs entry) {fuel : ℕ}
    {items : FinMap Path NodeLink} (hlist : Mount.lsDeep fuel blobs entry [.rootDir] = .ok items) :
    FileTree.Carries
      ((FsCall.createDirAll targetDir :: exportCalls blobs targetDir items.toList).map
        (FsCall.on cwd))
      (exportPlan (targetDir.resolve cwd) (contentsAt blobs entry)) := by
  let block : Path × NodeLink → List (TreeCall Name Bytes) := fun item =>
    ((itemCalls blobs targetDir item).getD []).map (FsCall.on cwd)
  have hcalls : (FsCall.createDirAll targetDir ::
      exportCalls blobs targetDir items.toList).map (FsCall.on cwd) =
        [.createDirAll (targetDir.resolve cwd)] ++ items.toList.flatMap block := by
    simp [exportCalls, List.map_flatMap, block, FsCall.on]
  have hblock : ∀ item ∈ items.toList, ∃ names, names ≠ [] ∧
      linkAt blobs entry names = some item.2 ∧
      block item = linkCalls blobs (targetDir.resolve cwd ++ names) item.2 := by
    intro item hitem
    obtain ⟨names, hnames, hsame, hlink⟩ := htree.mem_lsDeep hlist hitem
    refine ⟨names, hnames, hlink, ?_⟩
    change ((itemCalls blobs targetDir item).getD []).map (FsCall.on cwd) = _
    rw [hsame]
    exact map_itemCalls hnames
  rw [hcalls]
  constructor
  · intro call hcall
    rcases List.mem_append.mp hcall with hbase | hitems
    · rw [List.mem_singleton.mp hbase]
      exact fun above habove => exportPlan_above habove
    · obtain ⟨item, hitem, hcall⟩ := List.mem_flatMap.mp hitems
      obtain ⟨names, hnames, hlink, hsame⟩ := hblock item hitem
      rw [hsame] at hcall
      exact follows_linkCalls hnames hlink call hcall
  · intro place wanted hwanted
    by_cases hbelow : targetDir.resolve cwd <+: place
    · obtain ⟨names, rfl⟩ := hbelow
      rw [exportPlan_append] at hwanted
      by_cases hnames : names = []
      · subst hnames
        exact ⟨_, List.mem_append_left _ (List.mem_singleton_self _), by simp [TreeCall.Makes]⟩
      · rw [contentsAt_of_ne_nil hnames] at hwanted
        obtain ⟨link, hlink, hdisk⟩ := Option.bind_eq_some_iff.mp hwanted
        have hitem : (relPath names, link) ∈ items.toList :=
          FinMap.get?_eq_some_iff.mp ((htree.get?_lsDeep hlist).mpr ⟨names, hnames, rfl, hlink⟩)
        have hsome : diskEntry blobs link ≠ none := by simp [hdisk]
        obtain ⟨call, hcall, hmakes⟩ :=
          exists_linkCalls_makes hsome (targetDir.resolve cwd ++ names)
        refine ⟨call, List.mem_append_right _ (List.mem_flatMap.mpr ⟨_, hitem, ?_⟩), hmakes⟩
        change call ∈ ((itemCalls blobs targetDir (relPath names, link)).getD []).map _
        rw [map_itemCalls hnames]
        exact hcall
    · unfold exportPlan at hwanted
      rw [if_neg hbelow] at hwanted
      split_ifs at hwanted with habove
      exact ⟨_, List.mem_append_left _ (List.mem_singleton_self _), habove⟩
  · apply TreeCall.Prepared.append
    · intro front path contents back heq
      cases front <;> simp at heq
    · apply TreeCall.prepared_flatMap
      intro item hitem
      obtain ⟨names, hnames, -, hsame⟩ := hblock item hitem
      rw [hsame]
      exact prepared_linkCalls hnames

end

/-! ## What an export leaves -/

/-- Every file of the tree can be decrypted. -/
def Decryptable (mount : MountState) : Prop :=
  ∀ names link, linkAt mount.world.blobs mount.inner.entry names = some link →
    diskEntry mount.world.blobs link ≠ none

def MountState.contents (mount : MountState) : List Name → Option (TreeEntry Bytes) :=
  contentsAt mount.world.blobs mount.inner.entry

/-- The tree of the mount lies over what was on the disk, and the hash map has its files. -/
structure Copied (mount : MountState) (base : List Name) (disk disk' : Disk)
    (hashMap : FinMap Path (Hash × Bytes)) : Prop where
  decryptable : Decryptable mount
  entry : ∀ place, disk'.entry place =
    (exportPlan base mount.contents place).or (disk.entry place)
  hashes : ∀ path hash plaintextHash, hashMap.get? path = some (hash, plaintextHash) ↔
    ∃ names link data, path = relPath names ∧
      linkAt mount.world.blobs mount.inner.entry names = some link ∧ link.link.hash = hash ∧
      mount.contents names = some (.file data) ∧ P.blake3 data = plaintextHash

section

variable {mount : MountState}

theorem decryptable_iff (htree : NormalTree mount.world.blobs mount.inner.entry) {fuel : ℕ}
    {items : FinMap Path NodeLink} (targetDir : Path)
    (hlist : Mount.lsDeep fuel mount.world.blobs mount.inner.entry [.rootDir] = .ok items) :
    (∀ item ∈ items.toList, itemCalls mount.world.blobs targetDir item ≠ none) ↔
      Decryptable mount := by
  constructor
  · intro h names link hlink
    have hnames : names ≠ [] := by
      rintro rfl
      cases hlink
    have hitem := (htree.get?_lsDeep hlist).mpr ⟨names, hnames, rfl, hlink⟩
    exact itemCalls_ne_none_iff.mp (h _ (FinMap.get?_eq_some_iff.mp hitem))
  · intro h item hitem
    obtain ⟨names, -, hsame, hlink⟩ := htree.mem_lsDeep hlist hitem
    rw [hsame]
    exact itemCalls_ne_none_iff.mpr (h names _ hlink)

theorem hashes_iff (htree : NormalTree mount.world.blobs mount.inner.entry) {fuel : ℕ}
    {items : FinMap Path NodeLink}
    (hlist : Mount.lsDeep fuel mount.world.blobs mount.inner.entry [.rootDir] = .ok items)
    {path : Path} {hash : Hash} {plaintextHash : Bytes} :
    (path, (hash, plaintextHash)) ∈ items.toList.filterMap (hashEntry mount.world.blobs) ↔
      ∃ names link data, path = relPath names ∧
        linkAt mount.world.blobs mount.inner.entry names = some link ∧ link.link.hash = hash ∧
        mount.contents names = some (.file data) ∧ P.blake3 data = plaintextHash := by
  rw [List.mem_filterMap]
  constructor
  · rintro ⟨⟨itemPath, link⟩, hitem, hentry⟩
    obtain ⟨rfl, hhash, data, hdata, hplain⟩ := hashEntry_eq_some_iff.mp hentry
    obtain ⟨names, hnames, hsame, hlink⟩ := htree.mem_lsDeep hlist hitem
    refine ⟨names, link, data, congrArg Prod.fst hsame, hlink, hhash, ?_, hplain⟩
    unfold MountState.contents
    rw [contentsAt_of_ne_nil hnames, hlink, Option.bind_some, hdata]
  · rintro ⟨names, link, data, rfl, hlink, hhash, hdata, hplain⟩
    have hnames : names ≠ [] := by
      rintro rfl
      cases hlink
    unfold MountState.contents at hdata
    rw [contentsAt_of_ne_nil hnames, hlink, Option.bind_some] at hdata
    have hitem := (htree.get?_lsDeep hlist).mpr ⟨names, hnames, rfl, hlink⟩
    exact ⟨(relPath names, link), FinMap.get?_eq_some_iff.mp hitem,
      hashEntry_eq_some_iff.mpr ⟨rfl, hhash, data, hdata, hplain⟩⟩

end

omit P in
/-- Entries of different keys are all kept. -/
theorem length_foldl_put {κ β : Type} [LinearOrder κ] {entries : List (κ × β)} {map : FinMap κ β}
    (hfresh : ∀ entry ∈ entries, map.contains entry.1 = false)
    (hdistinct : entries.Pairwise (fun entry other => entry.1 ≠ other.1)) :
    (entries.foldl (fun map entry => map.put entry.1 entry.2) map).toList.length =
      map.toList.length + entries.length := by
  induction entries generalizing map with
  | nil => simp
  | cons entry rest ih =>
      obtain ⟨hfirst, hrest⟩ := List.pairwise_cons.mp hdistinct
      have hlater : ∀ other ∈ rest, (map.put entry.1 entry.2).contains other.1 = false := by
        intro other hother
        have hne := hfirst other hother
        have hold := hfresh other (List.mem_cons_of_mem _ hother)
        rw [Bool.eq_false_iff, Ne, FinMap.contains_put_iff, hold]
        simpa using hne
      rw [List.foldl_cons, ih hlater hrest]
      have hlength : (map.put entry.1 entry.2).toList.length = map.toList.length + 1 :=
        KeyedMap.length_insert (hfresh entry List.mem_cons_self)
      rw [hlength, List.length_cons]
      omega

/-- An export that succeeds has laid the tree over what was there, and counts its files. -/
theorem export_lays_tree {mount : MountState}
    (htree : NormalTree mount.world.blobs mount.inner.entry) (fs : LocalFs) (targetDir : Path)
    (fuel : ℕ) {exported : ℕ} {state' : ExportState}
    (hrun : (exportInto fs.refuses fuel mount targetDir).run .start = .ok exported state') :
    Copied mount (targetDir.resolve fs.cwd) fs.disk (fs.after state'.calls) state'.hashMap ∧
      exported = state'.hashMap.toList.length := by
  obtain ⟨items, hlist, hreadable, haccepts, rfl, rfl⟩ := exportInto_ok_iff.mp hrun
  have hperformed := fs.performAll_of_accepts haccepts
  have hentries : (items.toList.filterMap (hashEntry mount.world.blobs)).Pairwise
      (fun entry other => entry.1 ≠ other.1) := by
    apply items.sorted.filterMap
    intro item other hlt entry hentry entry' hentry'
    obtain ⟨hpath, -⟩ := hashEntry_eq_some_iff.mp hentry
    obtain ⟨hpath', -⟩ := hashEntry_eq_some_iff.mp hentry'
    rw [hpath, hpath']
    exact hlt.ne
  let view : Path → Option (Hash × Bytes) := fun path =>
    (items.get? path).bind (fun link => (hashEntry mount.world.blobs (path, link)).map Prod.snd)
  have hview : ∀ entry ∈ items.toList.filterMap (hashEntry mount.world.blobs),
      view entry.1 = some entry.2 := by
    intro entry hentry
    obtain ⟨⟨path, link⟩, hitem, hsame⟩ := List.mem_filterMap.mp hentry
    obtain ⟨hpath, -⟩ := hashEntry_eq_some_iff.mp hsame
    have hget := FinMap.get?_eq_some_iff.mpr hitem
    simp only [view, hpath, hget, Option.bind_some, hsame, Option.map_some]
  refine ⟨⟨(decryptable_iff htree targetDir hlist).mp hreadable, ?_, ?_⟩, ?_⟩
  · intro place
    exact (htree.carries hlist).entry hperformed
  · intro path hash plaintextHash
    rw [← hashes_iff htree hlist]
    exact ((FinMap.agrees_empty view).get?_foldl_put hview).trans (by simp)
  · have hfresh : ∀ entry ∈ items.toList.filterMap (hashEntry mount.world.blobs),
        (KeyedMap.empty : FinMap Path (Hash × Bytes)).contains entry.1 = false :=
      fun entry _ => rfl
    exact (length_foldl_put hfresh hentries).symm

/-- Without other faults an export succeeds exactly when the files can be decrypted and the
disk has no file where the bucket has a directory, nor a directory where it has a file. -/
theorem export_succeeds_iff_fits {mount : MountState}
    (htree : NormalTree mount.world.blobs mount.inner.entry) (fs : LocalFs)
    (hfaults : ∀ made, fs.faults made = none) (targetDir : Path) :
    ∃ fuel, ∀ fuel' ≥ fuel,
      (∃ exported state', (exportInto fs.refuses fuel' mount targetDir).run .start =
        .ok exported state') ↔
      Decryptable mount ∧ fs.disk.Fits (exportPlan (targetDir.resolve fs.cwd) mount.contents) := by
  obtain ⟨fuel, items, hlist⟩ := htree.exists_lsDeep
  refine ⟨fuel, ?_⟩
  intro fuel' hle
  have hcarries : FileTree.Carries _ (exportPlan (targetDir.resolve fs.cwd) mount.contents) :=
    htree.carries (hlist fuel' hle)
  rw [← decryptable_iff htree targetDir (hlist fuel' hle), ← hcarries.succeeds_iff]
  constructor
  · rintro ⟨exported, state', hrun⟩
    obtain ⟨items', hlist', hreadable, haccepts, -⟩ := exportInto_ok_iff.mp hrun
    rw [hlist fuel' hle] at hlist'
    cases hlist'
    exact ⟨hreadable, _, fs.performAll_of_accepts haccepts⟩
  · rintro ⟨hreadable, disk', hperformed⟩
    have haccepts : Accepts fs.refuses [] _ := fs.accepts_of_performAll hfaults hperformed
    exact ⟨_, _, exportInto_ok_iff.mpr
      ⟨items, hlist fuel' hle, hreadable, haccepts, rfl, rfl⟩⟩

end

namespace Reference

/-- A disk with `/srv/out` and a file in it. -/
def servedDisk : Disk :=
  ((FileTree.empty : Disk).performAll
    [.createDirAll ["srv".toList, "out".toList],
      .write ["srv".toList, "out".toList, "old".toList] [9]]).getD FileTree.empty

def localFs : LocalFs := ⟨[], servedDisk, fun _ => none⟩

theorem isNormalTree_nested :
    isNormalTree nestedMount.world.blobs 3 nestedMount.inner.entry = true := by
  decide +kernel

theorem nested_laid : ∃ state', (exportInto localFs.refuses 5 nestedMount outDir).run .start =
      .ok 2 state' ∧
    Copied nestedMount (outDir.resolve localFs.cwd) localFs.disk (localFs.after state'.calls)
      state'.hashMap ∧ 2 = state'.hashMap.toList.length := by
  have hok : ((exportInto localFs.refuses 5 nestedMount outDir).run .start).okWith
      (fun exported _ => exported == 2) = true := by
    decide +kernel
  obtain ⟨exported, state', hrun, hexported⟩ := EStateM.Result.exists_of_okWith hok
  obtain rfl : exported = 2 := by simpa using hexported
  exact ⟨state', hrun, export_lays_tree (normalTree_of_isNormalTree isNormalTree_nested) localFs
    outDir 5 hrun⟩

theorem nested_succeeds_iff_fits : ∃ fuel, ∀ fuel' ≥ fuel,
    (∃ exported state', (exportInto localFs.refuses fuel' nestedMount outDir).run .start =
      .ok exported state') ↔
    Decryptable nestedMount ∧
      localFs.disk.Fits (exportPlan (outDir.resolve localFs.cwd) nestedMount.contents) :=
  export_succeeds_iff_fits (normalTree_of_isNormalTree isNormalTree_nested) localFs
    (fun _ => rfl) outDir

end Reference

end JaxFs

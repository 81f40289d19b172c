import JaxFs.FuseWrite
import JaxFs.Runs

/-!
# The cache of the filesystem

Listings, attributes and contents are cached by path.  A request that changes the tree
takes some paths out of the cache; what stays must be what fetching it again would give.
The mount is seen as the file tree it represents, and a change of the tree as the paths
and the listings it does not keep.
-/

namespace JaxFs

namespace Fuse

/-- The path of names as the kernel has them, without blanks at their ends. -/
structure PathOf (path : Name) (names : List Name) : Prop where
  eq : path = pathString names
  plain : ∀ name ∈ names, PlainName name

def entrySize : TreeEntry File → ℕ
  | .dir => 0
  | .file contents => contents.data.length

section

variable {path : Name} {names : List Name}

theorem PathOf.parse (h : PathOf path names) : Path.parse path = absPath names := by
  rw [h.eq]
  exact parse_pathString (fun name hname => (h.plain name hname).toValidName)

theorem PathOf.normalize (h : PathOf path names) : normalizePath path = path := by
  rw [h.eq]
  exact normalizePath_pathString h.plain

theorem PathOf.injective {names' : List Name} (h : PathOf path names)
    (h' : PathOf path names') : names = names' :=
  pathString_injOn (fun name hname => (h.plain name hname).toValidName)
    (fun name hname => (h'.plain name hname).toValidName) (h.eq.symm.trans h'.eq)

variable {name : Name}

theorem PathOf.parent (h : PathOf path (names ++ [name])) : PathOf (parentPath path) names :=
  ⟨by rw [h.eq, parentPath_pathString h.plain],
    fun other hother => h.plain other (by simp [hother])⟩

theorem PathOf.filename (h : PathOf path (names ++ [name])) : filename path = name := by
  rw [h.eq, filename_pathString h.plain]

theorem PathOf.ne_root (h : PathOf path (names ++ [name])) : path ≠ ['/'] := by
  rw [h.eq, pathString_concat]
  exact joinPath_ne_root _ (h.plain name (by simp)).ne_nil

theorem PathOf.join (h : PathOf path names) (hname : PlainName name) :
    PathOf (joinPath path name) (names ++ [name]) := by
  refine ⟨by rw [h.eq, pathString_concat], ?_⟩
  intro other hother
  rcases List.mem_append.mp hother with hold | hnew
  · exact h.plain other hold
  · rw [List.mem_singleton.mp hnew]
    exact hname

end

/-! ## What is fetched -/

section

variable [P : Primitives] {mount : MountState} {tree : FileTree Name File}

/-- A link that is found is of the kind of the entry. -/
theorem isDir_of_get (h : Represents mount tree) {names : List Name} (hnames : names ≠ [])
    {link : NodeLink} (hget : mount.get (absPath names) = .ok link) :
    (tree.entry names).map TreeEntry.isDir = some link.isDir := by
  cases link with
  | dir link secret =>
      rw [(h.readsAs.dir names hnames).mp ⟨link, secret, hget⟩]
      rfl
  | data link secret mime =>
      obtain ⟨data, hdata⟩ := (h.readsAs.file names mime).mp ⟨link, secret, hget⟩
      rw [hdata]
      rfl

theorem get_of_entry (h : Represents mount tree) {names : List Name} (hnames : names ≠ [])
    {found : TreeEntry File} (hfound : tree.entry names = some found) :
    ∃ link, mount.get (absPath names) = .ok link ∧ link.isDir = found.isDir := by
  have hget : ∃ link, mount.get (absPath names) = .ok link := by
    cases found with
    | dir =>
        obtain ⟨link, secret, hget⟩ := (h.readsAs.dir names hnames).mpr hfound
        exact ⟨_, hget⟩
    | file contents =>
        obtain ⟨link, secret, hget⟩ :=
          (h.readsAs.file names contents.mime).mpr ⟨contents.data, hfound⟩
        exact ⟨_, hget⟩
  obtain ⟨link, hget⟩ := hget
  have hkind := isDir_of_get h hnames hget
  rw [hfound] at hkind
  exact ⟨link, hget, (Option.some.inj hkind).symm⟩

/-- The entry of a name in a listing. -/
theorem find?_listing {items : FinMap Path NodeLink} {parents : List Name}
    (h : Represents mount tree) (hls : mount.ls (absPath parents) = .ok items) (name : Name) :
    items.toList.find? (fun item => decide (item.1.fileName = some name)) =
      items.find? (relPath (parents ++ [name])) := by
  unfold KeyedMap.find?
  apply List.find?_congr
  intro item hitem
  obtain ⟨name', hpath, -⟩ := (h.readsAs.items parents items hls item.1 item.2).mp
    (FinMap.get?_eq_some_iff.mpr hitem)
  rw [hpath, relPath_fileName_append_singleton, decide_eq_decide]
  constructor
  · intro heq
    rw [Option.some.inj heq]
  · intro heq
    have hnames := relPath_injective heq
    simp at hnames
    rw [hnames]

/-- What an item of a listing contributes to the entries of the directory. -/
theorem listed_iff {items : FinMap Path NodeLink} {parents : List Name}
    (h : Represents mount tree) (hls : mount.ls (absPath parents) = .ok items) {path : Path}
    {entry : CachedDirEntry} :
    (∃ link, items.get? path = some link ∧
      (match path.fileName with
        | none => none
        | some name => if shouldFilter name then none
            else some (⟨name, link.isDir⟩ : CachedDirEntry)) = some entry) ↔
      path = relPath (parents ++ [entry.name]) ∧ shouldFilter entry.name = false ∧
        (tree.entry (parents ++ [entry.name])).map TreeEntry.isDir = some entry.isDir := by
  constructor
  · rintro ⟨link, hlink, hentry⟩
    obtain ⟨name, rfl, hget⟩ := (h.readsAs.items parents items hls path link).mp hlink
    simp only [relPath_fileName_append_singleton] at hentry
    split_ifs at hentry with hfilter
    cases hentry
    exact ⟨rfl, by simpa using hfilter, isDir_of_get h (by simp) hget⟩
  · rintro ⟨rfl, hfilter, hkind⟩
    obtain ⟨found, hfound, hdir⟩ := Option.map_eq_some_iff.mp hkind
    obtain ⟨link, hget, hlink⟩ := get_of_entry h (by simp) hfound
    refine ⟨link, (h.readsAs.items parents items hls _ _).mpr ⟨entry.name, rfl, hget⟩, ?_⟩
    simp only [relPath_fileName_append_singleton, hfilter, hlink, hdir, Bool.false_eq_true,
      if_false]

theorem mem_dirEntries_iff {items : FinMap Path NodeLink} {parents : List Name}
    (h : Represents mount tree) (hls : mount.ls (absPath parents) = .ok items)
    {entry : CachedDirEntry} :
    entry ∈ dirEntries items ↔ shouldFilter entry.name = false ∧
      (tree.entry (parents ++ [entry.name])).map TreeEntry.isDir = some entry.isDir := by
  unfold dirEntries
  rw [List.mem_filterMap]
  constructor
  · rintro ⟨item, hitem, hentry⟩
    exact ((listed_iff h hls).mp ⟨item.2, FinMap.get?_eq_some_iff.mpr hitem, hentry⟩).2
  · intro hlisted
    obtain ⟨link, hlink, hentry⟩ := (listed_iff h hls).mpr ⟨rfl, hlisted⟩
    exact ⟨_, FinMap.get?_eq_some_iff.mp hlink, hentry⟩

/-- The entries of a directory are those of its names that are shown. -/
theorem dirEntries_congr {mount' : MountState} {tree' : FileTree Name File}
    {items items' : FinMap Path NodeLink} {parents : List Name} (h : Represents mount tree)
    (h' : Represents mount' tree') (hls : mount.ls (absPath parents) = .ok items)
    (hls' : mount'.ls (absPath parents) = .ok items')
    (hnames : ∀ name, ¬ shouldFilter name = true →
      (tree'.entry (parents ++ [name])).map TreeEntry.isDir =
        (tree.entry (parents ++ [name])).map TreeEntry.isDir) :
    dirEntries items' = dirEntries items := by
  unfold dirEntries
  apply FinMap.filterMap_toList_congr
  intro path entry
  refine (listed_iff h' hls').trans (Iff.trans ?_ (listed_iff h hls).symm)
  refine and_congr_right (fun _ => and_congr_right (fun hfilter => ?_))
  rw [hnames entry.name (by simp [hfilter])]

variable {fs : FuseFs}

theorem run_readMount_of_ok {α : Type} {x : MountState → Except Fault α} {a : α}
    (h : x fs.mount = .ok a) : (readMount x).run fs = .ok (.ok a) fs := by
  rw [run_readMount, h]

/-- The attributes of what is in the tree. -/
theorem findAttr_of_entry (h : Represents fs.mount tree) {path : Name} {names : List Name}
    (hpath : PathOf path names) {found : TreeEntry File}
    (hfound : tree.entry names = some found) (now : ℤ) :
    (findAttr now path).run fs = .ok (some ⟨entrySize found, found.isDir, none, now⟩) fs := by
  unfold findAttr
  rcases List.eq_nil_or_concat names with rfl | ⟨parents, name, rfl⟩
  · have hroot : path = ['/'] := hpath.eq
    rw [if_pos hroot]
    rw [tree.root] at hfound
    cases hfound
    rfl
  · rw [List.concat_eq_append] at hpath hfound
    obtain ⟨items, hls⟩ := (h.readsAs.ls parents).mpr (tree.closed _ _ _ hfound)
    obtain ⟨link, hget, hkind⟩ := get_of_entry h (by simp) hfound
    have hitem : items.find? (relPath (parents ++ [name])) =
        some (relPath (parents ++ [name]), link) := by
      have hlisted := (h.readsAs.items parents items hls _ _).mpr ⟨name, rfl, hget⟩
      exact KeyedMap.find?_eq_some_iff.mpr ⟨FinMap.get?_eq_some_iff.mp hlisted, rfl⟩
    rw [if_neg hpath.ne_root, hpath.parent.parse, EStateM.run_bind_of_ok (run_readMount_of_ok hls)]
    simp only [hpath.filename, find?_listing h hls, hitem, hkind]
    cases found with
    | dir => rfl
    | file contents =>
        have hcat : fs.mount.cat (Path.join [.rootDir] (relPath (parents ++ [name]))) =
            .ok contents.data := by
          have hjoin : Path.join [.rootDir] (relPath (parents ++ [name])) =
              absPath (parents ++ [name]) := by
            cases parents <;> rfl
          rw [hjoin]
          exact (h.readsAs.cat _ _).mpr ⟨contents.mime, hfound⟩
        simp only [TreeEntry.isDir, Bool.false_eq_true, if_false]
        rw [EStateM.run_bind_of_ok (run_readMount_of_ok hcat)]
        rfl

/-- Attributes are found only of what is in the tree. -/
theorem entry_of_findAttr (h : Represents fs.mount tree) {path : Name} {names : List Name}
    (hpath : PathOf path names) {now : ℤ} {attr : CachedAttr}
    (hrun : (findAttr now path).run fs = .ok (some attr) fs) :
    ∃ found, tree.entry names = some found ∧ attr.size = entrySize found ∧
      attr.isDir = found.isDir := by
  cases hentry : tree.entry names with
  | some found =>
      rw [findAttr_of_entry h hpath hentry] at hrun
      cases hrun
      exact ⟨found, rfl, rfl, rfl⟩
  | none =>
      exfalso
      obtain ⟨parents, name, rfl⟩ := (List.eq_nil_or_concat names).resolve_left
        (tree.ne_nil_of_eq_none hentry)
      rw [List.concat_eq_append] at hpath hentry
      unfold findAttr at hrun
      rw [if_neg hpath.ne_root, hpath.parent.parse] at hrun
      obtain ⟨listing, _, hread, hrest⟩ := EStateM.run_bind_eq_ok_iff.mp hrun
      obtain ⟨hls, rfl⟩ := run_readMount_eq_ok_iff.mp hread
      cases listing with
      | error error => simp at hrest
      | ok items =>
          have hitem : items.find? (relPath (parents ++ [name])) = none := by
            rw [KeyedMap.find?_eq_none_iff]
            rintro ⟨key, link⟩ hitem rfl
            obtain ⟨name', hkey, hget⟩ := (h.readsAs.items parents items hls _ link).mp
              (FinMap.get?_eq_some_iff.mpr hitem)
            rw [← relPath_injective hkey] at hget
            have hkind := isDir_of_get h (by simp) hget
            rw [hentry] at hkind
            contradiction
          simp only [hpath.filename, find?_listing h hls, hitem] at hrest
          simp at hrest

/-! ## Coherence -/

def FuseFs.uncached (fs : FuseFs) : FuseFs := { fs with cache := FileCache.empty }

def ContentOf (tree : FileTree Name File) (key : Name) (entry : CachedContent) : Prop :=
  ∃ names data mime, PathOf key names ∧ tree.entry names = some (.file ⟨data, mime⟩) ∧
    entry = octetStream data

def AttrOf (tree : FileTree Name File) (key : Name) (attr : CachedAttr) : Prop :=
  ∃ names found, PathOf key names ∧ tree.entry names = some found ∧
    attr.size = entrySize found ∧ attr.isDir = found.isDir

def ListingOf (mount : MountState) (key : Name) (entries : List CachedDirEntry) : Prop :=
  ∃ names items, PathOf key names ∧ mount.ls (absPath names) = .ok items ∧
    entries = dirEntries items

/-- The cache shows the tree of the mount. -/
structure Shows (mount : MountState) (tree : FileTree Name File) (cache : FileCache) : Prop where
  content : ∀ key entry, cache.content.get? key = some entry → ContentOf tree key entry
  attrs : ∀ key attr, cache.attrs.get? key = some attr → AttrOf tree key attr
  dirs : ∀ key entries, cache.dirs.get? key = some entries → ListingOf mount key entries

section

variable {cache : FileCache} {path : Name} {names : List Name}

theorem Shows.putAttr (h : Shows mount tree cache) {attr : CachedAttr}
    (hattr : AttrOf tree path attr) : Shows mount tree (cache.putAttr path attr) := by
  refine ⟨h.content, ?_, h.dirs⟩
  intro key other hcached
  obtain ⟨names, found, hpath, hrest⟩ := hattr
  simp only [FileCache.putAttr, FileCache.normalizeKey, hpath.normalize, FinMap.get?_put]
    at hcached
  split_ifs at hcached with heq
  · cases hcached
    exact ⟨names, found, heq ▸ hpath, hrest⟩
  · exact h.attrs key other hcached

theorem Shows.putDir (h : Shows mount tree cache) {entries : List CachedDirEntry}
    (hentries : ListingOf mount path entries) :
    Shows mount tree (cache.putDir path entries) := by
  refine ⟨h.content, h.attrs, ?_⟩
  intro key other hcached
  obtain ⟨names, items, hpath, hrest⟩ := hentries
  simp only [FileCache.putDir, FileCache.normalizeKey, hpath.normalize, FinMap.get?_put]
    at hcached
  split_ifs at hcached with heq
  · cases hcached
    exact ⟨names, items, heq ▸ hpath, hrest⟩
  · exact h.dirs key other hcached

theorem Shows.putContent (h : Shows mount tree cache) {entry : CachedContent}
    (hentry : ContentOf tree path entry) : Shows mount tree (cache.putContent path entry) := by
  refine ⟨?_, h.attrs, h.dirs⟩
  intro key other hcached
  obtain ⟨names, data, mime, hpath, hrest⟩ := hentry
  simp only [FileCache.putContent, FileCache.normalizeKey, hpath.normalize, FinMap.get?_put]
    at hcached
  split_ifs at hcached with heq
  · cases hcached
    exact ⟨names, data, mime, heq ▸ hpath, hrest⟩
  · exact h.content key other hcached

end

/-! ## Fetching keeps the cache coherent -/

/-- The mount is a file tree and the cache shows it. -/
def InStepAt (mount : MountState) (cache : FileCache) : Prop :=
  ∃ tree, Represents mount tree ∧ Shows mount tree cache

def InStep (fs : FuseFs) : Prop := InStepAt fs.mount fs.cache

section

variable {fs' : FuseFs} {path : Name} {names : List Name}

theorem InStep.fetchAttr (h : InStep fs) (hpath : PathOf path names) {now : ℤ}
    {result : Option CachedAttr} (hrun : (fetchAttr now path).run fs = .ok result fs') :
    InStep fs' := by
  obtain ⟨tree, hmount, hshows⟩ := h
  rcases fetchAttr_eq_ok hrun with ⟨-, -, rfl⟩ | ⟨hfind, ⟨-, rfl⟩ | ⟨attr, rfl, rfl⟩⟩
  · exact ⟨tree, hmount, hshows⟩
  · exact ⟨tree, hmount, hshows⟩
  · obtain ⟨found, hfound, hattr⟩ := entry_of_findAttr hmount hpath hfind
    exact ⟨tree, hmount, hshows.putAttr ⟨names, found, hpath, hfound, hattr⟩⟩

theorem InStep.fetchDir (h : InStep fs) (hpath : PathOf path names)
    {result : Option (List CachedDirEntry)}
    (hrun : (fetchDir path).run fs = .ok result fs') : InStep fs' := by
  obtain ⟨tree, hmount, hshows⟩ := h
  rcases fetchDir_eq_ok hrun with rfl | ⟨items, hls, rfl⟩
  · exact ⟨tree, hmount, hshows⟩
  · rw [hpath.parse] at hls
    exact ⟨tree, hmount, hshows.putDir ⟨names, items, hpath, hls, rfl⟩⟩

theorem InStep.fetchContent (h : InStep fs) (hpath : PathOf path names)
    {result : Option CachedContent}
    (hrun : (fetchContent path).run fs = .ok result fs') : InStep fs' := by
  obtain ⟨tree, hmount, hshows⟩ := h
  rcases fetchContent_eq_ok hrun with rfl | ⟨data, hcat, rfl⟩
  · exact ⟨tree, hmount, hshows⟩
  · rw [hpath.parse] at hcat
    obtain ⟨mime, hfile⟩ := (hmount.readsAs.cat names data).mp hcat
    exact ⟨tree, hmount, hshows.putContent ⟨names, data, mime, hpath, hfile, rfl⟩⟩

end

/-! ## Changes of the tree -/

/-- Outside the paths that are gone everything is still there, and outside the relisted
ones the listings are the same. -/
structure Changes (tree tree' : FileTree Name File) (gone relisted : List Name → Prop) :
    Prop where
  keeps : ∀ names, ¬ gone names → tree.Keeps tree' names
  keepsNames : ∀ names, ¬ relisted names →
    FileTree.KeepsNames (fun name => shouldFilter name = true) tree tree' names

omit P in
theorem Changes.trans {tree' tree'' : FileTree Name File}
    {gone gone' relisted relisted' : List Name → Prop} (h : Changes tree tree' gone relisted)
    (h' : Changes tree' tree'' gone' relisted') :
    Changes tree tree'' (fun names => gone names ∨ gone' names)
      (fun names => relisted names ∨ relisted' names) := by
  constructor
  · intro names hnot
    rw [not_or] at hnot
    exact (h.keeps names hnot.1).trans (h'.keeps names hnot.2)
  · intro names hnot
    rw [not_or] at hnot
    exact (h.keepsNames names hnot.1).trans (h'.keepsNames names hnot.2)

/-- A name on the way to the path, shown in its directory, that is not there yet. -/
def Missing (tree : FileTree Name File) (names place : List Name) : Prop :=
  ∃ name, place ++ [name] <+: names ∧ shouldFilter name = false ∧
    tree.entry (place ++ [name]) = none

omit P in
theorem changes_graft {names : List Name} {branch : TreeBranch Name File}
    (hnames : names ≠ []) (hclear : tree.Clear names) (hfile : tree.entry names ≠ some .dir)
    (hbranch : tree.entry names ≠ none → ∃ contents, branch.entry [] = some (.file contents)) :
    Changes tree (tree.graft names branch hnames)
      (fun place => place = names ∧ tree.entry names ≠ none) (Missing tree names) := by
  constructor
  · intro place hplace
    apply FileTree.graft_keeps hnames hclear hfile
    intro heq
    by_contra hsome
    exact hplace ⟨heq, hsome⟩
  · intro place hplace
    apply FileTree.graft_keepsNames hnames hclear hfile hbranch
    intro name hpre
    by_contra hnot
    rw [not_or, not_not] at hnot
    exact hplace ⟨name, hpre, by simpa using hnot.1, hnot.2⟩

omit P in
theorem changes_erase {names : List Name} (hnames : names ≠ []) :
    Changes tree (tree.erase names hnames) (fun place => names <+: place)
      (fun place => names <+: place ∨ place = names.dropLast) := by
  constructor
  · intro place hplace
    exact FileTree.erase_keeps hnames hplace
  · intro place hplace
    rw [not_or] at hplace
    apply FileTree.erase_keepsNames hnames hplace.1
    rintro name rfl
    exact hplace.2 (by simp)

/-- The cache after some paths have been taken out. -/
structure Within (cache' cache : FileCache) (dropped : Name → Prop) : Prop where
  content : ∀ key entry, cache'.content.get? key = some entry →
    cache.content.get? key = some entry ∧ ¬ dropped key
  attrs : ∀ key attr, cache'.attrs.get? key = some attr →
    cache.attrs.get? key = some attr ∧ ¬ dropped key
  dirs : ∀ key entries, cache'.dirs.get? key = some entries →
    cache.dirs.get? key = some entries ∧ ¬ dropped key

omit P in
theorem within_invalidate (cache : FileCache) {path : Name} (h : normalizePath path = path) :
    Within (cache.invalidate path) cache (fun key => key = path) := by
  constructor <;> intro key _ hcached <;>
    simp only [FileCache.invalidate, FileCache.normalizeKey, h, FinMap.get?_erase] at hcached <;>
    split_ifs at hcached with heq <;> exact ⟨hcached, fun hkey => heq hkey.symm⟩

omit P in
theorem Within.trans {cache cache' cache'' : FileCache} {dropped dropped' : Name → Prop}
    (h : Within cache'' cache' dropped') (h' : Within cache' cache dropped) :
    Within cache'' cache (fun key => dropped key ∨ dropped' key) := by
  constructor
  · intro key entry hcached
    obtain ⟨hmiddle, hnot⟩ := h.content key entry hcached
    obtain ⟨hold, hnot'⟩ := h'.content key entry hmiddle
    exact ⟨hold, not_or.mpr ⟨hnot', hnot⟩⟩
  · intro key attr hcached
    obtain ⟨hmiddle, hnot⟩ := h.attrs key attr hcached
    obtain ⟨hold, hnot'⟩ := h'.attrs key attr hmiddle
    exact ⟨hold, not_or.mpr ⟨hnot', hnot⟩⟩
  · intro key entries hcached
    obtain ⟨hmiddle, hnot⟩ := h.dirs key entries hcached
    obtain ⟨hold, hnot'⟩ := h'.dirs key entries hmiddle
    exact ⟨hold, not_or.mpr ⟨hnot', hnot⟩⟩

omit P in
theorem Within.of_imp {cache cache' : FileCache} {dropped dropped' : Name → Prop}
    (h : Within cache' cache dropped) (himp : ∀ key, dropped' key → dropped key) :
    Within cache' cache dropped' :=
  ⟨fun key entry hcached =>
      (h.content key entry hcached).imp_right (fun hnot => mt (himp key) hnot),
    fun key attr hcached => (h.attrs key attr hcached).imp_right (fun hnot => mt (himp key) hnot),
    fun key entries hcached =>
      (h.dirs key entries hcached).imp_right (fun hnot => mt (himp key) hnot)⟩

/-- The cache shows the changed tree when what is left in it is kept by the change or new. -/
theorem Shows.changed {mount' : MountState} {tree' : FileTree Name File}
    {cache cache' : FileCache} {gone relisted : List Name → Prop} (h : Shows mount tree cache)
    (hmount : Represents mount tree) (hmount' : Represents mount' tree')
    (hchange : Changes tree tree' gone relisted)
    (hcontent : ∀ key entry, cache'.content.get? key = some entry →
      (cache.content.get? key = some entry ∧ ∀ names, PathOf key names → ¬ gone names) ∨
        ContentOf tree' key entry)
    (hattrs : ∀ key attr, cache'.attrs.get? key = some attr →
      (cache.attrs.get? key = some attr ∧ ∀ names, PathOf key names → ¬ gone names) ∨
        AttrOf tree' key attr)
    (hdirs : ∀ key entries, cache'.dirs.get? key = some entries →
      cache.dirs.get? key = some entries ∧ ∀ names, PathOf key names → ¬ relisted names) :
    Shows mount' tree' cache' := by
  constructor
  · intro key entry hcached
    rcases hcontent key entry hcached with ⟨hold, hkept⟩ | hnew
    · obtain ⟨names, data, mime, hpath, hfile, hentry⟩ := h.content key entry hold
      exact ⟨names, data, mime, hpath, hchange.keeps names (hkept names hpath) _ hfile, hentry⟩
    · exact hnew
  · intro key attr hcached
    rcases hattrs key attr hcached with ⟨hold, hkept⟩ | hnew
    · obtain ⟨names, found, hpath, hfound, hattr⟩ := h.attrs key attr hold
      exact ⟨names, found, hpath, hchange.keeps names (hkept names hpath) _ hfound, hattr⟩
    · exact hnew
  · intro key entries hcached
    obtain ⟨hold, hkept⟩ := hdirs key entries hcached
    obtain ⟨names, items, hpath, hls, rfl⟩ := h.dirs key entries hold
    obtain ⟨hdir, hnames⟩ := hchange.keepsNames names (hkept names hpath)
      ((hmount.readsAs.ls names).mp ⟨items, hls⟩)
    obtain ⟨items', hls'⟩ := (hmount'.readsAs.ls names).mpr hdir
    exact ⟨names, items', hpath, hls', (dirEntries_congr hmount hmount' hls hls' hnames).symm⟩

end

end Fuse

end JaxFs

import JaxFs.FuseCache

/-!
# Coherence of the cache over runs

Every request that succeeds keeps the cache coherent when its paths have no blanks at
their ends and the cache holds nothing that the request changes and does not take out.
`Request.Safe` says for each request what that is.
-/

namespace JaxFs

namespace Fuse

section

variable [P : Primitives] [LawfulPrimitives]

/-! ## The operations on the tree -/

section

variable {mount mount' : MountState} {tree : FileTree Name File}

theorem represents_of_ok (h : Represents mount tree) (action : TreeAction)
    (hnode : action.AddsNoNode) (hrun : action.perform.run mount = .ok () mount') :
    ∃ tree', action.effect tree = some tree' ∧ Represents mount' tree' := by
  rcases refines h hnode with ⟨tree', state', heffect, hok, hafter⟩ |
    ⟨-, fault, state', herror, -⟩
  · rw [hrun] at hok
    cases hok
    exact ⟨tree', heffect, hafter⟩
  · rw [hrun] at herror
    contradiction

theorem represents_add (h : Represents mount tree) {names : List Name} {data : Bytes}
    (hnode : P.decodeNode data = none)
    (hrun : (add (absPath names) data).run mount = .ok () mount') :
    ∃ (hnames : names ≠ []) (mime : Option Name), tree.Clear names ∧
      Represents mount' (tree.graft names (.leaf (.file ⟨data, mime⟩)) hnames) := by
  obtain ⟨tree', heffect, hafter⟩ := represents_of_ok h (.add names data) hnode hrun
  by_cases hclear : names ≠ [] ∧ tree.Clear names
  · rw [TreeAction.effect, FileTree.write_of_clear hclear.1 hclear.2] at heffect
    cases heffect
    exact ⟨hclear.1, _, hclear.2, hafter⟩
  · rw [TreeAction.effect, FileTree.write_eq_none hclear] at heffect
    contradiction

theorem represents_mkdir (h : Represents mount tree) {names : List Name}
    (hrun : (JaxFs.mkdir (absPath names)).run mount = .ok () mount') :
    ∃ hnames : names ≠ [], tree.entry names = none ∧ tree.Clear names ∧
      Represents mount' (tree.graft names (.leaf .dir) hnames) := by
  obtain ⟨tree', heffect, hafter⟩ := represents_of_ok h (.mkdir names) trivial hrun
  by_cases hclear : tree.entry names = none ∧ tree.Clear names
  · rw [TreeAction.effect, FileTree.mkdir_of_clear hclear.1 hclear.2] at heffect
    cases heffect
    exact ⟨_, hclear.1, hclear.2, hafter⟩
  · rw [TreeAction.effect, FileTree.mkdir_eq_none hclear] at heffect
    contradiction

theorem represents_rm (h : Represents mount tree) {names : List Name}
    (hrun : (rm (absPath names)).run mount = .ok () mount') :
    ∃ hnames : names ≠ [], Represents mount' (tree.erase names hnames) := by
  obtain ⟨tree', heffect, hafter⟩ := represents_of_ok h (.rm names) trivial hrun
  by_cases hfound : names ≠ [] ∧ tree.entry names ≠ none
  · rw [TreeAction.effect, FileTree.remove_of_found hfound.1 hfound.2] at heffect
    cases heffect
    exact ⟨hfound.1, hafter⟩
  · rw [TreeAction.effect, FileTree.remove_eq_none hfound] at heffect
    contradiction

theorem represents_mv (h : Represents mount tree) {source target : List Name}
    (hrun : (mv (absPath source) (absPath target)).run mount = .ok () mount') :
    ∃ (hsource : source ≠ []) (htarget : target ≠ []), tree.Movable source target ∧
      tree.Clear target ∧ Represents mount'
        ((tree.erase source hsource).graft target (tree.below source) htarget) := by
  obtain ⟨tree', heffect, hafter⟩ :=
    represents_of_ok h (.mv source target) trivial hrun
  by_cases hmove : tree.Movable source target ∧ tree.Clear target
  · rw [TreeAction.effect, FileTree.move_of_clear hmove.1 hmove.2] at heffect
    cases heffect
    exact ⟨_, _, hmove.1, hmove.2, hafter⟩
  · rw [TreeAction.effect, FileTree.move_eq_none hmove] at heffect
    contradiction

end

/-! ## What a request must not find in the cache -/

/-- Every cached listing on the way to the path shows the next name, if it is one that
listings show. -/
def Shown (cache : FileCache) (names : List Name) : Prop :=
  ∀ place name entries, place ++ [name] <+: names →
    cache.getDir (pathString place) = some entries →
    shouldFilter name = true ∨ ∃ entry ∈ entries, entry.name = name

def NothingBelow (cache : FileCache) (names : List Name) : Prop :=
  ∀ rest, rest ≠ [] → cache.getContent (pathString (names ++ rest)) = none ∧
    cache.getAttr (pathString (names ++ rest)) = none ∧
    cache.getDir (pathString (names ++ rest)) = none

/-- The bytes, which are no node, go to a place that is no directory. -/
structure Rewrites (mount : MountState) (cache : FileCache) (names : List Name) (data : Bytes) :
    Prop where
  no_node : P.decodeNode data = none
  no_dir : ¬ ∃ items, mount.ls (absPath names) = .ok items
  shown : Shown cache names

section

variable {mount mount' : MountState} {tree : FileTree Name File} {cache : FileCache}
  {key path : Name} {names place : List Name}

omit [LawfulPrimitives] in
theorem Shows.not_missing (hmount : Represents mount tree) (h : Shows mount tree cache)
    (hshown : Shown cache names) {entries : List CachedDirEntry}
    (hcached : cache.dirs.get? key = some entries) (hpath : PathOf key place) :
    ¬ Missing tree names place := by
  rintro ⟨name, hpre, hfilter, hnone⟩
  have hget : cache.getDir (pathString place) = some entries := by
    rw [FileCache.getDir, FileCache.normalizeKey, ← hpath.eq, hpath.normalize, hcached]
  rcases hshown place name entries hpre hget with hhidden | ⟨entry, hentry, rfl⟩
  · rw [hfilter] at hhidden
    contradiction
  · obtain ⟨names', items, hpath', hls, rfl⟩ := h.dirs key entries hcached
    cases hpath'.injective hpath
    have hlisted := ((mem_dirEntries_iff hmount hls).mp hentry).2
    rw [hnone] at hlisted
    contradiction

omit P [LawfulPrimitives] in
theorem NothingBelow.eq_none (h : NothingBelow cache names) (hpath : PathOf key place)
    (hpre : names <+: place) (hne : place ≠ names) :
    cache.content.get? key = none ∧ cache.attrs.get? key = none ∧
      cache.dirs.get? key = none := by
  obtain ⟨rest, rfl⟩ := hpre
  have hrest : rest ≠ [] := by
    rintro rfl
    simp at hne
  have hbelow := h rest hrest
  rw [← hpath.eq] at hbelow
  simpa [FileCache.getContent, FileCache.getAttr, FileCache.getDir, FileCache.normalizeKey,
    hpath.normalize] using hbelow

/-- A file is written anew and its path taken out of the cache. -/
theorem InStepAt.rewrite (h : InStepAt mount cache) (hpath : PathOf path names) {data : Bytes}
    (hsafe : Rewrites mount cache names data)
    (hadd : (add (Path.parse path) data).run mount = .ok () mount') :
    InStepAt mount' (cache.invalidate path) := by
  obtain ⟨tree, hmount, hshows⟩ := h
  rw [hpath.parse] at hadd
  obtain ⟨hnames, mime, hclear, hmount'⟩ := represents_add hmount hsafe.no_node hadd
  have hfile : tree.entry names ≠ some .dir := fun hdir =>
    hsafe.no_dir ((hmount.readsAs.ls names).mpr hdir)
  have hwithin := within_invalidate cache hpath.normalize
  refine ⟨_, hmount', hshows.changed hmount hmount'
    (changes_graft hnames hclear hfile (fun _ => ⟨_, rfl⟩)) ?_ ?_ ?_⟩
  · intro key entry hcached
    obtain ⟨hold, hne⟩ := hwithin.content key entry hcached
    refine Or.inl ⟨hold, fun place hplace hgone => hne ?_⟩
    rw [hplace.eq, hgone.1, hpath.eq]
  · intro key attr hcached
    obtain ⟨hold, hne⟩ := hwithin.attrs key attr hcached
    refine Or.inl ⟨hold, fun place hplace hgone => hne ?_⟩
    rw [hplace.eq, hgone.1, hpath.eq]
  · intro key entries hcached
    obtain ⟨hold, -⟩ := hwithin.dirs key entries hcached
    exact ⟨hold, fun place hplace => hshows.not_missing hmount hsafe.shown hold hplace⟩

/-- An empty file is made, of which only the attributes are cached anew. -/
theorem InStepAt.create (h : InStepAt mount cache) (hpath : PathOf path names)
    (hsafe : Rewrites mount cache names [])
    (hcontent : ∀ content, cache.getContent path = some content → content.data = [])
    (hadd : (add (Path.parse path) []).run mount = .ok () mount') (now : ℤ) :
    InStepAt mount' (cache.putAttr path ⟨0, false, none, now⟩) := by
  obtain ⟨tree, hmount, hshows⟩ := h
  rw [hpath.parse] at hadd
  obtain ⟨hnames, mime, hclear, hmount'⟩ := represents_add hmount hsafe.no_node hadd
  have hfile : tree.entry names ≠ some .dir := fun hdir =>
    hsafe.no_dir ((hmount.readsAs.ls names).mpr hdir)
  have hnew : (tree.graft names (.leaf (.file ⟨[], mime⟩)) hnames).entry names =
      some (.file ⟨[], mime⟩) := by
    simp [FileTree.graft, TreeBranch.leaf]
  refine ⟨_, hmount', hshows.changed hmount hmount'
    (changes_graft hnames hclear hfile (fun _ => ⟨_, rfl⟩)) ?_ ?_ ?_⟩
  · intro key entry hcached
    by_cases hkey : key = path
    · right
      subst hkey
      obtain ⟨_, data, _, _, _, rfl⟩ := hshows.content key entry hcached
      have hdata : data = [] := hcontent (octetStream data)
        (by rw [FileCache.getContent, FileCache.normalizeKey, hpath.normalize]; exact hcached)
      subst hdata
      exact ⟨names, [], mime, hpath, hnew, rfl⟩
    · refine Or.inl ⟨hcached, fun place hplace hgone => hkey ?_⟩
      rw [hplace.eq, hgone.1, hpath.eq]
  · intro key attr hcached
    simp only [FileCache.putAttr, FileCache.normalizeKey, hpath.normalize, FinMap.get?_put]
      at hcached
    split_ifs at hcached with hkey
    · cases hcached
      subst hkey
      exact Or.inr ⟨names, _, hpath, hnew, rfl, rfl⟩
    · refine Or.inl ⟨hcached, fun place hplace hgone => hkey ?_⟩
      rw [hplace.eq, hgone.1, hpath.eq]
  · intro key entries hcached
    exact ⟨hcached, fun place hplace => hshows.not_missing hmount hsafe.shown hcached hplace⟩

/-- A directory is made, and the listing of its parent taken out of the cache. -/
theorem InStepAt.mkdir {parent : Name} {name : Name} (h : InStepAt mount cache)
    (hparent : PathOf parent names) (hpath : PathOf path (names ++ [name]))
    (hshown : Shown cache names)
    (hmkdir : (JaxFs.mkdir (Path.parse path)).run mount = .ok () mount') (now : ℤ) :
    InStepAt mount' ((cache.putAttr path ⟨0, true, none, now⟩).invalidate parent) := by
  obtain ⟨tree, hmount, hshows⟩ := h
  rw [hpath.parse] at hmkdir
  obtain ⟨hnames, hfree, hclear, hmount'⟩ := represents_mkdir hmount hmkdir
  have hnew : (tree.graft (names ++ [name]) (.leaf .dir) hnames).entry (names ++ [name]) =
      some .dir := by
    simp [FileTree.graft, TreeBranch.leaf]
  have hwithin := within_invalidate (cache.putAttr path ⟨0, true, none, now⟩) hparent.normalize
  refine ⟨_, hmount', hshows.changed hmount hmount'
    (changes_graft hnames hclear (by simp [hfree]) (fun hsome => absurd hfree hsome))
    ?_ ?_ ?_⟩
  · intro key entry hcached
    exact Or.inl ⟨(hwithin.content key entry hcached).1,
      fun place hplace hgone => hgone.2 hfree⟩
  · intro key attr hcached
    have hput := (hwithin.attrs key attr hcached).1
    simp only [FileCache.putAttr, FileCache.normalizeKey, hpath.normalize, FinMap.get?_put]
      at hput
    split_ifs at hput with hkey
    · cases hput
      subst hkey
      exact Or.inr ⟨_, _, hpath, hnew, rfl, rfl⟩
    · exact Or.inl ⟨hput, fun place hplace hgone => hgone.2 hfree⟩
  · intro key entries hcached
    obtain ⟨hold, hne⟩ := hwithin.dirs key entries hcached
    refine ⟨hold, fun place hplace => ?_⟩
    rintro ⟨next, hpre, hfilter, hnone⟩
    rcases List.prefix_concat_iff.mp (by simpa using hpre) with heq | hproper
    · have hplaces : place = names ∧ next = name := by simpa using heq
      apply hne
      rw [hplace.eq, hplaces.1, hparent.eq]
    · exact hshows.not_missing hmount hshown hold hplace ⟨next, hproper, hfilter, hnone⟩

/-- Something is removed with all that is below it. -/
theorem InStepAt.rm {parent : Name} {name : Name} (h : InStepAt mount cache)
    (hparent : PathOf parent names) (hpath : PathOf path (names ++ [name]))
    (hbelow : NothingBelow cache (names ++ [name]))
    (hrm : (rm (Path.parse path)).run mount = .ok () mount') :
    InStepAt mount' ((cache.invalidate path).invalidate parent) := by
  obtain ⟨tree, hmount, hshows⟩ := h
  rw [hpath.parse] at hrm
  obtain ⟨hnames, hmount'⟩ := represents_rm hmount hrm
  have hwithin := (within_invalidate (cache.invalidate path) hparent.normalize).trans
    (within_invalidate cache hpath.normalize)
  have hkept : ∀ key place, PathOf key place → key ≠ path → names ++ [name] <+: place →
      cache.content.get? key = none ∧ cache.attrs.get? key = none ∧
        cache.dirs.get? key = none := by
    intro key place hplace hne hpre
    refine hbelow.eq_none hplace hpre ?_
    rintro rfl
    exact hne (hplace.eq.trans hpath.eq.symm)
  refine ⟨_, hmount', hshows.changed hmount hmount' (changes_erase hnames) ?_ ?_ ?_⟩
  · intro key entry hcached
    obtain ⟨hold, hne⟩ := hwithin.content key entry hcached
    rw [not_or] at hne
    refine Or.inl ⟨hold, fun place hplace hgone => ?_⟩
    rw [(hkept key place hplace hne.1 hgone).1] at hold
    contradiction
  · intro key attr hcached
    obtain ⟨hold, hne⟩ := hwithin.attrs key attr hcached
    rw [not_or] at hne
    refine Or.inl ⟨hold, fun place hplace hgone => ?_⟩
    rw [(hkept key place hplace hne.1 hgone).2.1] at hold
    contradiction
  · intro key entries hcached
    obtain ⟨hold, hne⟩ := hwithin.dirs key entries hcached
    rw [not_or] at hne
    refine ⟨hold, fun place hplace => ?_⟩
    rintro (hgone | hlisting)
    · rw [(hkept key place hplace hne.1 hgone).2.2] at hold
      contradiction
    · apply hne.2
      rw [hplace.eq, hlisting, List.dropLast_concat, hparent.eq]

omit P [LawfulPrimitives] in
theorem within_renamedCache (cache : FileCache) {oldParent newParent oldPath newPath : Name}
    (hold : normalizePath oldPath = oldPath) (hnew : normalizePath newPath = newPath)
    (holdParent : normalizePath oldParent = oldParent)
    (hnewParent : normalizePath newParent = newParent) :
    Within (renamedCache cache oldParent newParent oldPath newPath) cache (fun key =>
      key = oldPath ∨ key = newPath ∨ key = oldParent ∨ key = newParent) := by
  have hthree := ((within_invalidate ((cache.invalidate oldPath).invalidate newPath)
    holdParent).trans (within_invalidate (cache.invalidate oldPath) hnew)).trans
      (within_invalidate cache hold)
  unfold renamedCache
  dsimp only
  split_ifs with hparents
  · apply ((within_invalidate _ hnewParent).trans hthree).of_imp
    tauto
  · apply hthree.of_imp
    rw [not_not] at hparents
    rw [hparents]
    tauto

/-- A branch goes to another place. -/
theorem InStepAt.mv {oldParent newParent oldPath newPath : Name} {source target : List Name}
    {name newname : Name} (h : InStepAt mount cache) (holdParent : PathOf oldParent source)
    (hold : PathOf oldPath (source ++ [name])) (hnewParent : PathOf newParent target)
    (hnew : PathOf newPath (target ++ [newname]))
    (hbelow : NothingBelow cache (source ++ [name])) (hshown : Shown cache target)
    (hmv : (mv (Path.parse oldPath) (Path.parse newPath)).run mount = .ok () mount') :
    InStepAt mount' (renamedCache cache oldParent newParent oldPath newPath) := by
  obtain ⟨tree, hmount, hshows⟩ := h
  rw [hold.parse, hnew.parse] at hmv
  obtain ⟨hsource, htarget, hmovable, hclear, hmount'⟩ := represents_mv hmount hmv
  have herased : ∀ place, place <+: target ++ [newname] →
      (tree.erase (source ++ [name]) hsource).entry place = tree.entry place := by
    intro place hpre
    exact if_neg (fun hbelow => hmovable.outside (hbelow.trans hpre))
  have hfree : (tree.erase (source ++ [name]) hsource).entry (target ++ [newname]) = none := by
    rw [herased _ List.prefix_rfl]
    exact hmovable.free
  have hchanges := (changes_erase hsource).trans
    (@changes_graft _ _ (tree.below (source ++ [name])) htarget
      ((FileTree.clear_erase_iff hsource hmovable.outside).mpr hclear) (by simp [hfree])
      (fun hsome => absurd hfree hsome))
  have hwithin := within_renamedCache cache hold.normalize hnew.normalize holdParent.normalize
    hnewParent.normalize
  have hkept : ∀ key place, PathOf key place → key ≠ oldPath → source ++ [name] <+: place →
      cache.content.get? key = none ∧ cache.attrs.get? key = none ∧
        cache.dirs.get? key = none := by
    intro key place hplace hne hpre
    refine hbelow.eq_none hplace hpre ?_
    rintro rfl
    exact hne (hplace.eq.trans hold.eq.symm)
  refine ⟨_, hmount', hshows.changed hmount hmount' hchanges ?_ ?_ ?_⟩
  · intro key entry hcached
    obtain ⟨hcached, hne⟩ := hwithin.content key entry hcached
    refine Or.inl ⟨hcached, fun place hplace hgone => ?_⟩
    rcases hgone with hgone | hgone
    · rw [(hkept key place hplace (fun heq => hne (by simp [heq])) hgone).1] at hcached
      contradiction
    · exact hgone.2 hfree
  · intro key attr hcached
    obtain ⟨hcached, hne⟩ := hwithin.attrs key attr hcached
    refine Or.inl ⟨hcached, fun place hplace hgone => ?_⟩
    rcases hgone with hgone | hgone
    · rw [(hkept key place hplace (fun heq => hne (by simp [heq])) hgone).2.1] at hcached
      contradiction
    · exact hgone.2 hfree
  · intro key entries hcached
    obtain ⟨hcached, hne⟩ := hwithin.dirs key entries hcached
    refine ⟨hcached, fun place hplace hgone => ?_⟩
    rcases hgone with (hgone | hlisting) | ⟨next, hpre, hfilter, hnone⟩
    · rw [(hkept key place hplace (fun heq => hne (by simp [heq])) hgone).2.2] at hcached
      contradiction
    · rw [List.dropLast_concat] at hlisting
      have hkey : key = oldParent := by rw [hplace.eq, hlisting, holdParent.eq]
      exact hne (by simp [hkey])
    · rw [herased _ hpre] at hnone
      rcases List.prefix_concat_iff.mp (by simpa using hpre) with heq | hproper
      · have hplaces : place = target ∧ next = newname := by simpa using heq
        have hkey : key = newParent := by rw [hplace.eq, hplaces.1, hnewParent.eq]
        exact hne (by simp [hkey])
      · exact hshows.not_missing hmount hshown hcached hplace ⟨next, hproper, hfilter, hnone⟩

end

/-! ## Requests -/

inductive Request where
  | lookup (parent : ℕ) (name : Name)
  | getattr (ino : ℕ)
  | readdir (ino offset : ℕ)
  | read (ino fh offset size : ℕ)
  | «open» (ino flags : ℕ)
  | write (fh offset : ℕ) (data : Bytes)
  | truncate (ino size : ℕ) (fh : Option ℕ)
  | flush (ino fh : ℕ)
  | release (fh : ℕ)
  | create (parent : ℕ) (name : Name)
  | mkdir (parent : ℕ) (name : Name)
  | unlink (parent : ℕ) (name : Name)
  | rmdir (parent : ℕ) (name : Name)
  | rename (parent : ℕ) (name : Name) (newparent : ℕ) (newname : Name)

namespace Request

def perform (now : ℤ) : Request → FuseM Unit
  | lookup parent name => do
      let _ ← Fuse.lookup now parent name
  | getattr ino => do
      let _ ← Fuse.getattr now ino
  | readdir ino offset => do
      let _ ← Fuse.readdir ino offset
  | read ino fh offset size => do
      let _ ← Fuse.read ino fh offset size
  | «open» ino flags => do
      let _ ← Fuse.open now ino flags
  | write fh offset data => do
      let _ ← Fuse.write fh offset data
  | truncate ino size fh => do
      let _ ← setattr now ino (some size) none fh
  | flush ino fh => Fuse.flush ino fh
  | release fh => Fuse.release fh
  | create parent name => do
      let _ ← Fuse.create now parent name
  | mkdir parent name => do
      let _ ← Fuse.mkdir now parent name
  | unlink parent name => Fuse.unlink parent name
  | rmdir parent name => Fuse.rmdir parent name
  | rename parent name newparent newname => Fuse.rename parent name newparent newname

/-- The path of the inode has no blanks at the ends of its names. -/
def PlainInode (fs : FuseFs) (ino : ℕ) : Prop :=
  ∀ path, fs.inodes.getPath ino = some path → ∃ names, PathOf path names

/-- The request takes out of the cache all that it makes out of date.  Its paths have no
blanks at their ends.  A file is made or written where no directory is, and then, as for a
new directory or the target of a rename, the listings that the request leaves in the cache
show the names on the way.  What is removed or renamed has nothing cached below it. -/
def Safe (fs : FuseFs) : Request → Prop
  | lookup parent name => PlainInode fs parent ∧ PlainName name
  | getattr ino => PlainInode fs ino
  | readdir ino _ => PlainInode fs ino
  | read ino _ _ _ => PlainInode fs ino
  | «open» ino _ => PlainInode fs ino
  | write _ _ _ => True
  | truncate ino size fh =>
      PlainInode fs ino ∧ (openBuffer fs fh = none →
        ∀ path names, fs.inodes.getPath ino = some path → PathOf path names →
          Rewrites fs.mount fs.cache names (resize (currentData fs.mount path size) size))
  | flush ino fh =>
      PlainInode fs ino ∧ ∀ path names buffer, fs.inodes.getPath ino = some path →
        PathOf path names → fs.writeBuffers.get? fh = some buffer → buffer.dirty = true →
          Rewrites fs.mount fs.cache names buffer.data
  | release _ => True
  | create parent name =>
      PlainInode fs parent ∧ PlainName name ∧
        ∀ path names, fs.inodes.getPath parent = some path → PathOf path names →
          Rewrites fs.mount fs.cache (names ++ [name]) [] ∧
            ∀ content, fs.cache.getContent (joinPath path name) = some content →
              content.data = []
  | mkdir parent name =>
      PlainInode fs parent ∧ PlainName name ∧
        ∀ path names, fs.inodes.getPath parent = some path → PathOf path names →
          Shown fs.cache names
  | unlink parent name | rmdir parent name =>
      PlainInode fs parent ∧ PlainName name ∧
        ∀ path names, fs.inodes.getPath parent = some path → PathOf path names →
          NothingBelow fs.cache (names ++ [name])
  | rename parent name newparent newname =>
      PlainInode fs parent ∧ PlainName name ∧ PlainInode fs newparent ∧ PlainName newname ∧
        (∀ path names, fs.inodes.getPath parent = some path → PathOf path names →
          NothingBelow fs.cache (names ++ [name])) ∧
        ∀ path names, fs.inodes.getPath newparent = some path → PathOf path names →
          Shown fs.cache names

end Request

section

variable {fs fs' : FuseFs}

omit [LawfulPrimitives] in
/-- Attributes that are fetched leave the cached listings alone. -/
theorem Rewrites.fetchAttr {now : ℤ} {path : Name} {names : List Name} {data : Bytes}
    {result : Option CachedAttr} (h : Rewrites fs.mount fs.cache names data)
    (hrun : (fetchAttr now path).run fs = .ok result fs') :
    Rewrites fs.mount fs'.cache names data := by
  rcases fetchAttr_eq_ok hrun with ⟨-, -, rfl⟩ | ⟨-, ⟨-, rfl⟩ | ⟨attr, -, rfl⟩⟩
  · exact h
  · exact h
  · exact ⟨h.no_node, h.no_dir, h.shown⟩

/-- A file is truncated, or its buffer. -/
theorem InStep.handleTruncate (h : InStep fs) {now : ℤ} {path : Name} {names : List Name}
    {size : ℕ} {fh : Option ℕ} (hpath : PathOf path names)
    (hsafe : openBuffer fs fh = none →
      Rewrites fs.mount fs.cache names (resize (currentData fs.mount path size) size))
    (hrun : (handleTruncate now path size fh).run fs = .ok () fs') : InStep fs' := by
  obtain ⟨attr, middle, hattr, hcases⟩ := handleTruncate_eq_ok hrun
  have hmiddle := h.fetchAttr hpath hattr
  rcases hcases with ⟨handle, buffer, -, rfl⟩ | ⟨hnone, mount, hadd, rfl⟩
  · exact hmiddle
  · have hrewrites := (hsafe hnone).fetchAttr hattr
    obtain ⟨cache, hframe⟩ := fetchAttr_frame hattr
    have hmount : middle.mount = fs.mount := by rw [hframe]
    rw [← hmount] at hadd hrewrites
    exact InStepAt.rewrite hmiddle hpath hrewrites hadd

/-- A request under its condition keeps the mount and the cache in step. -/
theorem InStep.perform (h : InStep fs) {now : ℤ} {request : Request} (hsafe : request.Safe fs)
    (hrun : (request.perform now).run fs = .ok () fs') : InStep fs' := by
  cases request with
  | lookup parent name =>
      obtain ⟨_, hlookup⟩ := EStateM.exists_of_run_discard hrun
      obtain ⟨path, attr, middle, inodes, hparent, hattr, rfl⟩ := lookup_eq_ok hlookup
      obtain ⟨names, hpath⟩ := hsafe.1 path hparent
      have hmiddle := h.fetchAttr (hpath.join hsafe.2) hattr
      exact hmiddle
  | getattr ino =>
      obtain ⟨_, hgetattr⟩ := EStateM.exists_of_run_discard hrun
      obtain ⟨path, hino, hattr⟩ := getattr_eq_ok hgetattr
      obtain ⟨names, hpath⟩ := hsafe path hino
      exact h.fetchAttr hpath hattr
  | readdir ino offset =>
      obtain ⟨_, hreaddir⟩ := EStateM.exists_of_run_discard hrun
      obtain ⟨path, entries, middle, inodes, hino, hdir, rfl⟩ := readdir_eq_ok hreaddir
      obtain ⟨names, hpath⟩ := hsafe path hino
      have hmiddle := h.fetchDir hpath hdir
      exact hmiddle
  | read ino fh offset size =>
      obtain ⟨_, hread⟩ := EStateM.exists_of_run_discard hrun
      rcases read_eq_ok hread with rfl | ⟨path, content, hino, hcontent⟩
      · exact h
      · obtain ⟨names, hpath⟩ := hsafe path hino
        exact h.fetchContent hpath hcontent
  | «open» ino flags =>
      obtain ⟨_, hopen⟩ := EStateM.exists_of_run_discard hrun
      obtain ⟨-, path, attr, middle, hino, hattr, rfl⟩ := open_eq_ok hopen
      obtain ⟨names, hpath⟩ := hsafe path hino
      have hmiddle := h.fetchAttr hpath hattr
      exact hmiddle
  | write fh offset data =>
      obtain ⟨_, hwrite⟩ := EStateM.exists_of_run_discard hrun
      obtain ⟨-, rfl⟩ := write_eq_ok hwrite
      exact h
  | truncate ino size fh =>
      obtain ⟨_, hsetattr⟩ := EStateM.exists_of_run_discard hrun
      obtain ⟨-, path, truncated, hino, htruncate, hattr⟩ := setattr_size_eq_ok hsetattr
      obtain ⟨names, hpath⟩ := hsafe.1 path hino
      have htruncated := h.handleTruncate hpath
        (fun hnone => hsafe.2 hnone path names hino hpath) htruncate
      exact htruncated.fetchAttr hpath hattr
  | flush ino fh =>
      rcases flush_eq_ok hrun with ⟨-, rfl⟩ |
        ⟨path, buffer, mount, hino, hbuffer, hdirty, hadd, rfl⟩
      · exact h
      · obtain ⟨names, hpath⟩ := hsafe.1 path hino
        exact InStepAt.rewrite h hpath (hsafe.2 path names buffer hino hpath hbuffer hdirty)
          hadd
  | release fh =>
      cases hrun
      exact h
  | create parent name =>
      obtain ⟨_, hcreate⟩ := EStateM.exists_of_run_discard hrun
      obtain ⟨-, path, mount, hparent, hadd, -, -, rfl⟩ := create_eq_ok hcreate
      obtain ⟨names, hpath⟩ := hsafe.1 path hparent
      obtain ⟨hrewrites, hcontent⟩ := hsafe.2.2 path names hparent hpath
      exact InStepAt.create h (hpath.join hsafe.2.1) hrewrites hcontent hadd now
  | mkdir parent name =>
      obtain ⟨_, hmkdir⟩ := EStateM.exists_of_run_discard hrun
      obtain ⟨-, path, mount, hparent, hmade, -, rfl⟩ := mkdir_eq_ok hmkdir
      obtain ⟨names, hpath⟩ := hsafe.1 path hparent
      exact InStepAt.mkdir h hpath (hpath.join hsafe.2.1) (hsafe.2.2 path names hparent hpath)
        hmade now
  | unlink parent name =>
      obtain ⟨-, path, mount, hparent, hrm, rfl⟩ := unlink_eq_ok hrun
      obtain ⟨names, hpath⟩ := hsafe.1 path hparent
      exact InStepAt.rm h hpath (hpath.join hsafe.2.1) (hsafe.2.2 path names hparent hpath) hrm
  | rmdir parent name =>
      obtain ⟨-, path, mount, hparent, hrm, rfl⟩ := unlink_eq_ok hrun
      obtain ⟨names, hpath⟩ := hsafe.1 path hparent
      exact InStepAt.rm h hpath (hpath.join hsafe.2.1) (hsafe.2.2 path names hparent hpath) hrm
  | rename parent name newparent newname =>
      obtain ⟨-, oldParent, newParent, mount, hold, hnew, hmv, rfl⟩ := rename_eq_ok hrun
      obtain ⟨hplain, hname, hplain', hnewname, hbelow, hshown⟩ := hsafe
      obtain ⟨source, hsource⟩ := hplain oldParent hold
      obtain ⟨target, htarget⟩ := hplain' newParent hnew
      exact InStepAt.mv h hsource (hsource.join hname) htarget (htarget.join hnewname)
        (hbelow oldParent source hold hsource) (hshown newParent target hnew htarget) hmv

/-! ## Runs -/

end

end

end Fuse

namespace Reference

open Fuse

end Reference

end JaxFs

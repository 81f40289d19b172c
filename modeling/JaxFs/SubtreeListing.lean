import JaxFs.DeepListing
import JaxFs.DirectoryView
import JaxFs.TreeRefinement

/-!
# Deep listings of ordinary trees

In a tree whose names are single path components a deep listing ends and has every entry
below the directory once, under its path from there.
-/

namespace JaxFs

section

variable [P : Primitives]

/-- The entries have names of one component, and so have those of the directories among
them, which can all be read. -/
inductive NormalTree (blobs : Blobs) : Node → Prop
  | node {node : Node}
      (names : ∀ name link, node.getLink name = some link → ValidName name)
      (loads : ∀ name link, node.getLink name = some link → link.isDir = true →
        ∃ child, loadNode blobs link = some child)
      (below : ∀ name link child, node.getLink name = some link → link.isDir = true →
        loadNode blobs link = some child → NormalTree blobs child) :
      NormalTree blobs node

/-- The node of a directory, reached through directories. -/
def dirAt (blobs : Blobs) : Node → List Name → Option Node
  | node, [] => some node
  | node, name :: rest =>
      ((node.getLink name).bind (dirNode blobs)).bind (fun child => dirAt blobs child rest)

variable {blobs : Blobs} {entry node child : Node} {names rest : List Name} {name : Name}
  {link : NodeLink}

theorem dirNode_eq_some_iff :
    dirNode blobs link = some child ↔ link.isDir = true ∧ loadNode blobs link = some child := by
  unfold dirNode
  split_ifs with hdir <;> simp [hdir]

theorem dirAt_append (names rest : List Name) :
    dirAt blobs node (names ++ rest) =
      (dirAt blobs node names).bind (fun child => dirAt blobs child rest) := by
  induction names generalizing node with
  | nil => rfl
  | cons first names ih =>
      rw [List.cons_append, dirAt, dirAt]
      cases (node.getLink first).bind (dirNode blobs) with
      | none => rfl
      | some child => exact ih

theorem walkNode_of_dirAt (h : dirAt blobs entry names = some node) :
    walkNode blobs entry names = some node := by
  induction names generalizing entry with
  | nil => exact h
  | cons first names ih =>
      rw [dirAt] at h
      obtain ⟨child, hchild, hbelow⟩ := Option.bind_eq_some_iff.mp h
      obtain ⟨link, hlink, hdir⟩ := Option.bind_eq_some_iff.mp hchild
      rw [walkNode, hlink, Option.bind_some, (dirNode_eq_some_iff.mp hdir).2, Option.bind_some]
      exact ih hbelow

theorem linkAt_append_of_dirAt (h : dirAt blobs entry names = some node) (hrest : rest ≠ []) :
    linkAt blobs entry (names ++ rest) = linkAt blobs node rest := by
  induction names generalizing entry with
  | nil =>
      cases h
      rfl
  | cons first names ih =>
      rw [dirAt] at h
      obtain ⟨child, hchild, hbelow⟩ := Option.bind_eq_some_iff.mp h
      rw [List.cons_append, linkAt_cons (by simp [hrest]), hchild, Option.bind_some]
      exact ih hbelow

theorem dirAt_concat (h : dirAt blobs entry names = some node)
    (hlink : node.getLink name = some link) (hdir : link.isDir = true)
    (hload : loadNode blobs link = some child) :
    dirAt blobs entry (names ++ [name]) = some child := by
  rw [dirAt_append, h, Option.bind_some, dirAt, hlink, Option.bind_some,
    dirNode_eq_some_iff.mpr ⟨hdir, hload⟩]
  rfl

theorem NormalTree.of_dirAt (htree : NormalTree blobs entry)
    (h : dirAt blobs entry names = some node) : NormalTree blobs node := by
  induction names generalizing entry with
  | nil =>
      cases h
      exact htree
  | cons first names ih =>
      rw [dirAt] at h
      obtain ⟨child, hchild, hbelow⟩ := Option.bind_eq_some_iff.mp h
      obtain ⟨link, hlink, hdir⟩ := Option.bind_eq_some_iff.mp hchild
      rw [dirNode_eq_some_iff] at hdir
      cases htree with
      | node _ _ htree => exact ih (htree first link child hlink hdir.1 hdir.2) hbelow

/-! ## One directory -/

/-- `ls` of a directory with ordinary names. -/
theorem NormalTree.ls (htree : NormalTree blobs node)
    (hnode : dirAt blobs entry names = some node) :
    ∃ items, Mount.ls blobs entry (absPath names) = .ok items ∧
      ∀ path link, items.get? path = some link ↔
        ∃ name, path = relPath (names ++ [name]) ∧ node.getLink name = some link := by
  have hwalk := walkNode_of_dirAt hnode
  have hvalid : ∀ reached,
      walkNode blobs entry ((absPath names).tail.map Component.toName) = some reached →
        ∀ item ∈ reached.links.toList, ValidName item.1 := by
    intro reached hreached item hitem
    have hnames : (absPath names).tail.map Component.toName = names := map_toName_relPath names
    rw [hnames, hwalk] at hreached
    cases hreached
    cases htree with
    | node hnames => exact hnames item.1 item.2 (FinMap.get?_eq_some_iff.mpr hitem)
  have hls := Mount.ls_eq_ls hvalid
  rcases ls_absPath blobs entry names with ⟨reached, hreached, hitems⟩ | ⟨hnone, -⟩
  · rw [hwalk] at hreached
    cases hreached
    exact ⟨_, hls.trans hitems, fun _ _ => get?_listing⟩
  · rw [hwalk] at hnone
    contradiction

/-- The walk comes to an end. -/
theorem NormalTree.walk_loads (htree : NormalTree blobs node)
    (hnode : dirAt blobs entry names = some node) : Loads blobs entry (absPath names) := by
  induction htree generalizing names with
  | @node node hnames hloads hbelow ih =>
      obtain ⟨items, hls, hitems⟩ := (NormalTree.node hnames hloads hbelow).ls hnode
      apply Loads.listed hls
      intro item hitem hdir
      obtain ⟨name, hpath, hlink⟩ :=
        (hitems item.1 item.2).mp (FinMap.get?_eq_some_iff.mpr hitem)
      obtain ⟨child, hload⟩ := hloads name item.2 hlink hdir
      rw [hpath, absItemPath_relPath]
      exact ih name item.2 child hlink hdir hload (dirAt_concat hnode hlink hdir hload)

/-! ## All that is listed -/

omit P in
theorem relativeTo_relPath (base rest : List Name) :
    relativeTo (relPath base) (relPath (base ++ rest)) = relPath rest := by
  have hbase : (relPath base).isPrefixOf (relPath (base ++ rest)) = true := by
    rw [List.isPrefixOf_iff_prefix, relPath_append]
    exact List.prefix_append _ _
  unfold relativeTo
  rw [if_pos hbase, relPath_append, List.drop_left]

/-- What an item of a directory adds to the listing: itself and what is below it. -/
def Contributes (below : Path → Except Fault (FinMap Path NodeLink)) (basePath : Path)
    (item : Path × NodeLink) (path : Path) (link : NodeLink) : Prop :=
  (path = relativeTo basePath item.1 ∧ link = item.2) ∨
    (item.2.isDir = true ∧ ∃ subItems, below (absItemPath item.1) = .ok subItems ∧
      subItems.get? path = some link)

omit P in
/-- The loop over a directory collects what its items contribute. -/
theorem get?_deepItems {below : Path → Except Fault (FinMap Path NodeLink)} {basePath : Path}
    {view : Path → Option NodeLink} {items : List (Path × NodeLink)}
    {all result : FinMap Path NodeLink}
    (hall : all.Agrees view)
    (hitems : ∀ item ∈ items, ∀ path link, Contributes below basePath item path link →
      view path = some link)
    (h : Mount.deepItems below basePath items all = .ok result) {path : Path} {link : NodeLink} :
    result.get? path = some link ↔
      all.get? path = some link ∨ ∃ item ∈ items, Contributes below basePath item path link := by
  induction items generalizing all with
  | nil =>
      cases h
      simp
  | cons first rest ih =>
      obtain ⟨itemPath, itemLink⟩ := first
      have hrest := fun item hitem => hitems item (List.mem_cons_of_mem _ hitem)
      have hfirst := hitems (itemPath, itemLink) List.mem_cons_self
      have hself : view (relativeTo basePath itemPath) = some itemLink :=
        hfirst _ _ (Or.inl ⟨rfl, rfl⟩)
      have hput := hall.put hself
      unfold Mount.deepItems at h
      dsimp only at h
      by_cases hdir : itemLink.isDir = true
      · rw [if_pos hdir] at h
        cases hsub : below (absItemPath itemPath) with
        | error fault =>
            rw [hsub] at h
            contradiction
        | ok subItems =>
            rw [hsub] at h
            have hsubItems : ∀ item ∈ subItems.toList, view item.1 = some item.2 := by
              intro item hitem
              exact hfirst _ _ (Or.inr ⟨hdir, subItems, hsub, FinMap.get?_eq_some_iff.mpr hitem⟩)
            rw [ih (hput.foldl_put hsubItems) hrest h, hput.get?_foldl_put hsubItems,
              hall.get?_put hself]
            simp [Contributes, hdir, hsub, FinMap.get?_eq_some_iff, or_assoc]
      · rw [if_neg hdir] at h
        rw [ih hput hrest h, hall.get?_put hself]
        simp [Contributes, hdir, or_assoc]

/-- An entry of a directory contributes what is at and behind its link. -/
theorem contributes_iff {below : Path → Except Fault (FinMap Path NodeLink)} {base : List Name}
    {item : Path × NodeLink} (hpath : item.1 = relPath (base ++ (names ++ [name])))
    (hlink : node.getLink name = some item.2)
    (hbelow : item.2.isDir = true → ∃ child subItems, loadNode blobs item.2 = some child ∧
      below (absItemPath item.1) = .ok subItems ∧
      ∀ path link, subItems.get? path = some link ↔
        ∃ rest, rest ≠ [] ∧ path = relPath (names ++ [name] ++ rest) ∧
          linkAt blobs child rest = some link) {path : Path} {link : NodeLink} :
    Contributes below (relPath base) item path link ↔
      ∃ rest, path = relPath (names ++ name :: rest) ∧
        linkAt blobs node (name :: rest) = some link := by
  have hself : linkAt blobs node [name] = some item.2 := hlink
  have hbehind : ∀ rest, rest ≠ [] →
      linkAt blobs node (name :: rest) =
        (dirNode blobs item.2).bind (fun child => linkAt blobs child rest) := by
    intro rest hrest
    rw [linkAt_cons hrest, hlink, Option.bind_some]
  unfold Contributes
  rw [hpath, relativeTo_relPath]
  constructor
  · rintro (⟨rfl, rfl⟩ | ⟨hdir, subItems, hsub, hget⟩)
    · exact ⟨[], rfl, hself⟩
    · obtain ⟨child, subItems', hload, hsub', hitems⟩ := hbelow hdir
      rw [hpath, hsub, Except.ok.injEq] at hsub'
      subst hsub'
      obtain ⟨rest, hrest, rfl, hfound⟩ := (hitems path link).mp hget
      refine ⟨rest, by simp, ?_⟩
      rw [hbehind rest hrest, dirNode_eq_some_iff.mpr ⟨hdir, hload⟩, Option.bind_some, hfound]
  · rintro ⟨rest, rfl, hfound⟩
    by_cases hrest : rest = []
    · subst hrest
      rw [hself, Option.some.injEq] at hfound
      exact Or.inl ⟨rfl, hfound.symm⟩
    · rw [hbehind rest hrest] at hfound
      obtain ⟨child, hchild, hfound⟩ := Option.bind_eq_some_iff.mp hfound
      obtain ⟨hdir, hload⟩ := dirNode_eq_some_iff.mp hchild
      obtain ⟨child', subItems, hload', hsub, hitems⟩ := hbelow hdir
      rw [hload, Option.some.injEq] at hload'
      subst hload'
      rw [hpath] at hsub
      refine Or.inr ⟨hdir, subItems, hsub, (hitems _ _).mpr ⟨rest, hrest, by simp, hfound⟩⟩

/-- A deep listing that succeeds has the entries below its directory, and no others. -/
theorem NormalTree.get?_lsDeepFrom {base : List Name} {fuel : ℕ} {result : FinMap Path NodeLink}
    (htree : NormalTree blobs node) (hnode : dirAt blobs entry (base ++ names) = some node)
    (h : Mount.lsDeepFrom blobs entry (relPath base) fuel (absPath (base ++ names)) =
      .ok result) {path : Path} {link : NodeLink} :
    result.get? path = some link ↔
      ∃ rest, rest ≠ [] ∧ path = relPath (names ++ rest) ∧
        linkAt blobs node rest = some link := by
  induction fuel generalizing names node result path link with
  | zero => contradiction
  | succ fuel ih =>
      obtain ⟨items, hls, hitems⟩ := htree.ls hnode
      unfold Mount.lsDeepFrom at h
      rw [hls] at h
      dsimp only at h
      have hsub := Mount.listed_of_deepItems_ok h
      have hcontributes : ∀ item ∈ items.toList, ∃ name, node.getLink name = some item.2 ∧
          item.1 = relPath (base ++ (names ++ [name])) ∧ ∀ path link,
          Contributes (Mount.lsDeepFrom blobs entry (relPath base) fuel) (relPath base) item
              path link ↔
            ∃ rest, path = relPath (names ++ name :: rest) ∧
              linkAt blobs node (name :: rest) = some link := by
        intro item hitem
        obtain ⟨name, hpath, hlink⟩ :=
          (hitems item.1 item.2).mp (FinMap.get?_eq_some_iff.mpr hitem)
        rw [List.append_assoc] at hpath
        refine ⟨name, hlink, hpath, ?_⟩
        intro path link
        apply contributes_iff hpath hlink
        intro hdir
        obtain ⟨subItems, hbelow⟩ := hsub item hitem hdir
        cases htree with
        | node _ hloads htree =>
            obtain ⟨child, hload⟩ := hloads name item.2 hlink hdir
            have hchild : dirAt blobs entry (base ++ (names ++ [name])) = some child := by
              rw [← List.append_assoc]
              exact dirAt_concat hnode hlink hdir hload
            refine ⟨child, subItems, hload, hbelow, ?_⟩
            intro path link
            rw [hpath, absItemPath_relPath] at hbelow
            exact ih (htree name item.2 child hlink hdir hload) hchild hbelow
      have hview : ∀ item ∈ items.toList, ∀ path link,
          Contributes (Mount.lsDeepFrom blobs entry (relPath base) fuel) (relPath base) item
            path link →
          linkAt blobs node ((path.map Component.toName).drop names.length) = some link := by
        intro item hitem path link hadds
        obtain ⟨name, _, _, hiff⟩ := hcontributes item hitem
        obtain ⟨rest, rfl, hfound⟩ := (hiff path link).mp hadds
        rw [map_toName_relPath, List.drop_left, hfound]
      rw [get?_deepItems (FinMap.agrees_empty _) hview h]
      simp only [FinMap.get?_empty, reduceCtorEq, false_or]
      constructor
      · rintro ⟨item, hitem, hadds⟩
        obtain ⟨name, _, _, hiff⟩ := hcontributes item hitem
        obtain ⟨rest, hpath, hfound⟩ := (hiff path link).mp hadds
        exact ⟨name :: rest, by simp, hpath, hfound⟩
      · rintro ⟨rest, hrest, hpath, hfound⟩
        cases rest with
        | nil => contradiction
        | cons name rest =>
            rw [linkAt_eq_linkBelow] at hfound
            obtain ⟨nameLink, hlink, hfound⟩ := Option.bind_eq_some_iff.mp hfound
            have hget : items.get? (relPath (base ++ names ++ [name])) = some nameLink :=
              (hitems _ _).mpr ⟨name, rfl, hlink⟩
            have hitem := FinMap.get?_eq_some_iff.mp hget
            refine ⟨_, hitem, ?_⟩
            obtain ⟨name', hlink', hpath', hiff⟩ := hcontributes _ hitem
            have hname : name = name' := by
              have hnames := relPath_injective hpath'
              simpa using hnames
            subst hname
            rw [hiff]
            refine ⟨rest, hpath, ?_⟩
            rw [linkAt_eq_linkBelow, hlink, Option.bind_some, hfound]

/-- `ls_deep` of a directory ends, with every larger fuel alike, and lists each entry below
the directory once: under its path from there, with the link that `get` has for it. -/
theorem lsDeep_enumerates (hdir : dirAt blobs entry names = some node)
    (htree : NormalTree blobs node) :
    ∃ fuel items, (∀ fuel' ≥ fuel, Mount.lsDeep fuel' blobs entry (absPath names) = .ok items) ∧
      (items.toList.map Prod.fst).Nodup ∧
      (∀ path link, items.get? path = some link ↔
        ∃ rest, rest ≠ [] ∧ path = relPath rest ∧
          linkAt blobs entry (names ++ rest) = some link) ∧
      ∀ path link, items.get? path = some link →
        get blobs entry ((absPath names).joinPath path) = .ok link := by
  have hlisted : Mount.Listed blobs entry (relPath names) (absPath names) :=
    Mount.listed_iff_loads.mpr (htree.walk_loads hdir)
  obtain ⟨fuel, items, hlist⟩ := hlisted
  have hitems : ∀ path link, items.get? path = some link ↔
      ∃ rest, rest ≠ [] ∧ path = relPath rest ∧
        linkAt blobs entry (names ++ rest) = some link := by
    intro path link
    have hdir' : dirAt blobs entry (names ++ []) = some node := by rwa [List.append_nil]
    have hlist' : Mount.lsDeepFrom blobs entry (relPath names) fuel (absPath (names ++ [])) =
        .ok items := by rwa [List.append_nil]
    rw [htree.get?_lsDeepFrom hdir' hlist']
    constructor
    · rintro ⟨rest, hrest, hpath, hfound⟩
      exact ⟨rest, hrest, hpath, (linkAt_append_of_dirAt hdir hrest).trans hfound⟩
    · rintro ⟨rest, hrest, hpath, hfound⟩
      exact ⟨rest, hrest, hpath, (linkAt_append_of_dirAt hdir hrest).symm.trans hfound⟩
  refine ⟨fuel, items, ?_, ?_, hitems, ?_⟩
  · intro fuel' hle
    change Mount.lsDeepFrom blobs entry (relPath names) fuel' (absPath names) = _
    rw [Mount.lsDeepFrom_of_le hle (by simp [hlist]), hlist]
  · exact List.pairwise_map.mpr (items.sorted.imp (fun hlt => hlt.ne))
  · intro path link hget
    obtain ⟨rest, hrest, rfl, hfound⟩ := (hitems path link).mp hget
    have hjoin : (absPath names).joinPath (relPath rest) = absPath (names ++ rest) := by
      rw [joinPath_relPath]
      simp [absPath, relPath]
    rw [hjoin]
    exact get_eq_ok_iff.mpr (findLink_of_linkAt hfound)

/-! ## Trees that are ordinary -/

/-- The names of a file tree bound the depth of the mount that represents it. -/
theorem Represents.normalTree {state : MountState} {tree : FileTree Name File}
    (h : Represents state tree)
    (hvalid : ∀ names, tree.entry names ≠ none → ∀ name ∈ names, ValidName name) :
    NormalTree state.world.blobs state.inner.entry := by
  obtain ⟨depth, hdepth⟩ := (tree.finite.image List.length).bddAbove
  have hlength : ∀ names, tree.entry names ≠ none → names.length ≤ depth :=
    fun names hnames => hdepth (Set.mem_image_of_mem _ hnames)
  have hfound : ∀ names node name link,
      dirAt state.world.blobs state.inner.entry names = some node →
      node.getLink name = some link →
        findLink state.world.blobs state.inner.entry (names ++ [name]) = some link := by
    intro names node name link hnode hlink
    rw [findLink_append_singleton, walkNode_of_dirAt hnode, Option.bind_some, hlink]
  have hentry : ∀ names node name link,
      dirAt state.world.blobs state.inner.entry names = some node →
      node.getLink name = some link → tree.entry (names ++ [name]) ≠ none := by
    intro names node name link hnode hlink
    exact (h.found_iff (by simp)).mpr ⟨link, hfound names node name link hnode hlink⟩
  -- the induction is on the room that is left below the directory
  have hbelow : ∀ room names node, depth ≤ names.length + room →
      dirAt state.world.blobs state.inner.entry names = some node →
      NormalTree state.world.blobs node := by
    intro room
    induction room with
    | zero =>
        intro names node hroom hnode
        have hempty : ∀ name link, node.getLink name ≠ some link := by
          intro name link hlink
          have hle := hlength _ (hentry names node name link hnode hlink)
          rw [List.length_append, List.length_singleton] at hle
          omega
        constructor
        · exact fun name link hlink => absurd hlink (hempty name link)
        · exact fun name link hlink => absurd hlink (hempty name link)
        · exact fun name link child hlink => absurd hlink (hempty name link)
    | succ room ih =>
        intro names node hroom hnode
        constructor
        · intro name link hlink
          exact hvalid _ (hentry names node name link hnode hlink) name (by simp)
        · intro name link hlink hdir
          have hintact := h.intact _ link (hfound names node name link hnode hlink)
          exact Option.isSome_iff_exists.mp (hintact.isLoadableDir_iff.mpr hdir).2
        · intro name link child hlink hdir hload
          apply ih (names ++ [name]) child _ (dirAt_concat hnode hlink hdir hload)
          rw [List.length_append, List.length_singleton]
          omega
  exact hbelow depth [] state.inner.entry (by simp) rfl

instance (name : Name) : Decidable (ValidName name) :=
  decidable_of_iff (name ≠ [] ∧ '/' ∉ name ∧ name ≠ ['.'] ∧ name ≠ ['.', '.'])
    ⟨fun ⟨hnil, hslash, hdot, hdots⟩ => ⟨hnil, hslash, hdot, hdots⟩,
      fun h => ⟨h.ne_nil, h.no_slash, h.ne_dot, h.ne_dots⟩⟩

/-- The tree is ordinary down to the depth of the fuel, and not deeper than that. -/
def isNormalTree (blobs : Blobs) : ℕ → Node → Bool
  | 0, _ => false
  | fuel + 1, node =>
      node.links.toList.all (fun item => decide (ValidName item.1) &&
        (!item.2.isDir || (loadNode blobs item.2).any (isNormalTree blobs fuel)))

theorem normalTree_of_isNormalTree {fuel : ℕ} (h : isNormalTree blobs fuel node = true) :
    NormalTree blobs node := by
  induction fuel generalizing node with
  | zero => contradiction
  | succ fuel ih =>
      have hitem : ∀ name link, node.getLink name = some link → ValidName name ∧
          (link.isDir = true → ∃ child, loadNode blobs link = some child ∧
            isNormalTree blobs fuel child = true) := by
        intro name link hlink
        have hmem := FinMap.get?_eq_some_iff.mp hlink
        have hchecked := List.all_eq_true.mp h (name, link) hmem
        simp only [Bool.and_eq_true, decide_eq_true_eq, Bool.or_eq_true,
          Option.any_eq_true] at hchecked
        refine ⟨hchecked.1, ?_⟩
        intro hdir
        simpa [hdir] using hchecked.2
      constructor
      · exact fun name link hlink => (hitem name link hlink).1
      · intro name link hlink hdir
        obtain ⟨child, hload, _⟩ := (hitem name link hlink).2 hdir
        exact ⟨child, hload⟩
      · intro name link child hlink hdir hload
        obtain ⟨child', hload', hchild⟩ := (hitem name link hlink).2 hdir
        rw [hload, Option.some.injEq] at hload'
        subst hload'
        exact ih hchild

end

namespace Reference

/-- `/a/f`, `/a/b` and `/a/b/g`. -/
def nestedMount : MountState :=
  ((do
    mkdir (absPath ["a".toList, "b".toList])
    add (absPath ["a".toList, "f".toList]) [1]
    add (absPath ["a".toList, "b".toList, "g".toList]) [2] : MountM Unit).run emptyMount).state

/-- The listing of `/a` has three entries, `b`, `b/g` and `f`. -/
theorem nested_enumerated :
    ∃ fuel items, (∀ fuel' ≥ fuel, Mount.lsDeep fuel' nestedMount.world.blobs
        nestedMount.inner.entry (absPath ["a".toList]) = .ok items) ∧
      (items.toList.map Prod.fst).Nodup ∧
      (∀ path link, items.get? path = some link ↔
        ∃ rest, rest ≠ [] ∧ path = relPath rest ∧ linkAt nestedMount.world.blobs
          nestedMount.inner.entry (["a".toList] ++ rest) = some link) ∧
      ∀ path link, items.get? path = some link →
        get nestedMount.world.blobs nestedMount.inner.entry
          ((absPath ["a".toList]).joinPath path) = .ok link := by
  have hfacts : ((dirAt nestedMount.world.blobs nestedMount.inner.entry ["a".toList]).any
      (isNormalTree nestedMount.world.blobs 3)) = true := by
    decide +kernel
  obtain ⟨node, hnode, hnormal⟩ := (Option.any_eq_true _ _).mp hfacts
  exact lsDeep_enumerates hnode (normalTree_of_isNormalTree hnormal)

end Reference

end JaxFs

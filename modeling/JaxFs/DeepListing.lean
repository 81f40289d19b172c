import JaxFs.MountLookup
import JaxFs.PathStrings

/-!
# Deep listings

`Mount::ls_deep` lists a directory and then, through `ls` again, every directory it has
found, under the path made of the names.  The names in a node may be any strings: a name
that is no single component can replace the path or leave it as it is, and then the walk
comes back to where it was.  A deep listing returns exactly when no descent through the
directories that it enters goes on forever.
-/

namespace JaxFs

/-- `PathBuf::push` of a string: an absolute one replaces the path. -/
def Path.push (path : Path) (name : Name) : Path :=
  if name.head? = some '/' ∨ path = [] then Path.parse name else path ++ components name

/-- `Path::join` of any path: a leading `.` is dropped behind other parts. -/
def Path.joinPath (path other : Path) : Path :=
  if other.isAbsolute ∨ path = [] then other
  else path ++ other.filter (fun part => decide (part ≠ .curDir))

/-- `Path::new("/").join(item_path)`. -/
def absItemPath (itemPath : Path) : Path := Path.joinPath [.rootDir] itemPath

/-- `strip_prefix(base_path).unwrap_or(item_path)`. -/
def relativeTo (basePath itemPath : Path) : Path :=
  if basePath.isPrefixOf itemPath then itemPath.drop basePath.length else itemPath

theorem ValidName.push {name : Name} (h : ValidName name) (path : Path) :
    path.push name = path ++ [.normal name] := by
  have hslash : name.head? ≠ some '/' := by
    intro hhead
    exact h.no_slash (List.mem_of_head? hhead)
  have hparse : Path.parse name = [.normal name] := by
    unfold Path.parse
    rw [if_neg hslash, if_neg, h.components]
    rw [List.splitOn_eq_singleton h.no_slash]
    simpa using h.ne_dot
  unfold Path.push
  split_ifs with hreplaced
  · rw [hparse, hreplaced.resolve_left hslash]
    rfl
  · rw [h.components]

theorem Path.push_nil (path : Path) : path.push [] = path := by
  unfold Path.push
  split_ifs with hreplaced
  · rw [hreplaced.resolve_left (by simp)]
    rfl
  · rw [components_nil, List.append_nil]

theorem joinPath_relPath (targetDir : Path) (names : List Name) :
    targetDir.joinPath (relPath names) = targetDir ++ relPath names := by
  have hkept : (relPath names).filter (fun part => decide (part ≠ .curDir)) = relPath names := by
    apply List.filter_eq_self.mpr
    intro part hpart
    obtain ⟨name, -, rfl⟩ := List.mem_map.mp hpart
    simp
  have hrelative : (relPath names).isAbsolute = false := by
    cases names <;> simp [Path.isAbsolute]
  unfold Path.joinPath
  rw [hkept, hrelative]
  by_cases hempty : targetDir = []
  · rw [if_pos (Or.inr hempty), hempty, List.nil_append]
  · rw [if_neg (by simp [hempty])]

theorem absItemPath_relPath (names : List Name) : absItemPath (relPath names) = absPath names :=
  joinPath_relPath [.rootDir] names

section

variable [P : Primitives]

namespace Mount

/-- `ls` with the names as they are; `ls` alone is for names that are single components. -/
def ls (blobs : Blobs) (entry : Node) (path : Path) : Except Fault (FinMap Path NodeLink) := do
  let path ← cleanPath path
  let node ←
    if path = [] then pure entry
    else
      match getNodeAtPath blobs entry path with
      | .error (.error (.linkNotFound _)) => throw (.error (.pathNotNode path))
      | result => result
  pure (node.links.toList.foldl (fun items item => items.put (path.push item.1) item.2)
    KeyedMap.empty)

/-- The loop of `_ls_deep` over the items of one directory. -/
def deepItems (below : Path → Except Fault (FinMap Path NodeLink)) (basePath : Path) :
    List (Path × NodeLink) → FinMap Path NodeLink → Except Fault (FinMap Path NodeLink)
  | [], allItems => .ok allItems
  | (itemPath, link) :: rest, allItems =>
      let allItems := allItems.put (relativeTo basePath itemPath) link
      if link.isDir then
        match below (absItemPath itemPath) with
        | .error fault => .error fault
        | .ok subItems =>
            deepItems below basePath rest
              (subItems.toList.foldl (fun all item => all.put item.1 item.2) allItems)
      else deepItems below basePath rest allItems

/-- `_ls_deep`, which recurses as deep as the fuel. -/
def lsDeepFrom (blobs : Blobs) (entry : Node) (basePath : Path) :
    ℕ → Path → Except Fault (FinMap Path NodeLink)
  | 0, _ => .error .outOfFuel
  | fuel + 1, path =>
      match ls blobs entry path with
      | .error fault => .error fault
      | .ok items =>
          deepItems (lsDeepFrom blobs entry basePath fuel) basePath items.toList KeyedMap.empty

def lsDeep (fuel : ℕ) (blobs : Blobs) (entry : Node) (path : Path) :
    Except Fault (FinMap Path NodeLink) := do
  let basePath ← cleanPath path
  lsDeepFrom blobs entry basePath fuel path

end Mount

/-! ## Where the walk goes -/

/-- Every directory below the path can be listed, to the end. -/
inductive Loads (blobs : Blobs) (entry : Node) : Path → Prop where
  | listed {path : Path} {items : FinMap Path NodeLink}
      (hls : Mount.ls blobs entry path = .ok items)
      (hbelow : ∀ item ∈ items.toList, item.2.isDir = true →
        Loads blobs entry (absItemPath item.1)) : Loads blobs entry path

/-- The walk goes from a path into a directory when it has listed those before it. -/
def Enters (blobs : Blobs) (entry : Node) (path child : Path) : Prop :=
  ∃ items before itemPath link after, Mount.ls blobs entry path = .ok items ∧
    items.toList = before ++ (itemPath, link) :: after ∧ link.isDir = true ∧
    child = absItemPath itemPath ∧
    ∀ item ∈ before, item.2.isDir = true → Loads blobs entry (absItemPath item.1)

namespace Mount

section

variable {blobs : Blobs} {entry : Node} {basePath path : Path}

omit P in
theorem deepItems_agree {below below' : Path → Except Fault (FinMap Path NodeLink)}
    (h : ∀ child, below child ≠ .error .outOfFuel → below' child = below child)
    (items : List (Path × NodeLink)) (all : FinMap Path NodeLink)
    (hfuel : deepItems below basePath items all ≠ .error .outOfFuel) :
    deepItems below' basePath items all = deepItems below basePath items all := by
  induction items generalizing all with
  | nil => rfl
  | cons item rest ih =>
      obtain ⟨itemPath, link⟩ := item
      unfold deepItems at hfuel ⊢
      dsimp only at hfuel ⊢
      split_ifs at hfuel ⊢ with hdir
      · have hbelow : below (absItemPath itemPath) ≠ .error .outOfFuel := by
          intro hout
          rw [hout] at hfuel
          exact hfuel rfl
        rw [h _ hbelow]
        cases hsub : below (absItemPath itemPath) with
        | error fault => rfl
        | ok subItems =>
            simp only [hsub] at hfuel
            exact ih _ hfuel
      · exact ih _ hfuel

/-- More fuel changes no answer. -/
theorem lsDeepFrom_add {fuel : ℕ} (more : ℕ)
    (h : lsDeepFrom blobs entry basePath fuel path ≠ .error .outOfFuel) :
    lsDeepFrom blobs entry basePath (fuel + more) path =
      lsDeepFrom blobs entry basePath fuel path := by
  induction fuel generalizing path with
  | zero => exact absurd rfl h
  | succ fuel ih =>
      rw [Nat.add_right_comm]
      unfold lsDeepFrom at h ⊢
      cases hls : ls blobs entry path with
      | error fault => rfl
      | ok items =>
          rw [hls] at h
          exact deepItems_agree (fun child hchild => ih hchild) _ _ h

theorem lsDeepFrom_of_le {fuel fuel' : ℕ} (hle : fuel ≤ fuel')
    (h : lsDeepFrom blobs entry basePath fuel path ≠ .error .outOfFuel) :
    lsDeepFrom blobs entry basePath fuel' path = lsDeepFrom blobs entry basePath fuel path := by
  obtain ⟨more, rfl⟩ := Nat.exists_eq_add_of_le hle
  exact lsDeepFrom_add more h

/-! ## Listings that succeed -/

/-- The listing of the path succeeds with enough fuel. -/
def Listed (blobs : Blobs) (entry : Node) (basePath path : Path) : Prop :=
  ∃ fuel items, lsDeepFrom blobs entry basePath fuel path = .ok items

/-- Listings of the directories among the items are enough for the loop, at one fuel. -/
theorem exists_deepItems_ok {items : List (Path × NodeLink)}
    (h : ∀ item ∈ items, item.2.isDir = true →
      Listed blobs entry basePath (absItemPath item.1)) :
    ∃ fuel, ∀ fuel' ≥ fuel, ∀ all, ∃ result,
      deepItems (lsDeepFrom blobs entry basePath fuel') basePath items all = .ok result := by
  induction items with
  | nil => exact ⟨0, fun _ _ all => ⟨all, rfl⟩⟩
  | cons item rest ih =>
      obtain ⟨itemPath, link⟩ := item
      obtain ⟨restFuel, hrest⟩ := ih (fun other hother => h other (List.mem_cons_of_mem _ hother))
      by_cases hdir : link.isDir = true
      · obtain ⟨fuel, subItems, hsub⟩ := h (itemPath, link) List.mem_cons_self hdir
        refine ⟨max fuel restFuel, ?_⟩
        intro fuel' hge all
        have hsub' : lsDeepFrom blobs entry basePath fuel' (absItemPath itemPath) =
            .ok subItems := by
          rw [lsDeepFrom_of_le ((le_max_left _ _).trans hge) (by simp [hsub]), hsub]
        unfold deepItems
        simp only [hdir, if_true, hsub']
        exact hrest fuel' ((le_max_right _ _).trans hge) _
      · refine ⟨restFuel, ?_⟩
        intro fuel' hge all
        unfold deepItems
        rw [if_neg hdir]
        exact hrest fuel' hge _

theorem listed_of_deepItems_ok {fuel : ℕ} {items : List (Path × NodeLink)}
    {all result : FinMap Path NodeLink}
    (h : deepItems (lsDeepFrom blobs entry basePath fuel) basePath items all = .ok result) :
    ∀ item ∈ items, item.2.isDir = true → ∃ subItems,
      lsDeepFrom blobs entry basePath fuel (absItemPath item.1) = .ok subItems := by
  induction items generalizing all with
  | nil => exact fun item hitem => absurd hitem List.not_mem_nil
  | cons first rest ih =>
      obtain ⟨itemPath, link⟩ := first
      unfold deepItems at h
      dsimp only at h
      intro item hitem hdir
      by_cases hfirst : link.isDir = true
      · rw [if_pos hfirst] at h
        cases hsub : lsDeepFrom blobs entry basePath fuel (absItemPath itemPath) with
        | error fault =>
            rw [hsub] at h
            cases h
        | ok subItems =>
            rw [hsub] at h
            rcases List.mem_cons.mp hitem with rfl | hrest
            · exact ⟨subItems, hsub⟩
            · exact ih h item hrest hdir
      · rw [if_neg hfirst] at h
        rcases List.mem_cons.mp hitem with rfl | hrest
        · exact absurd hdir hfirst
        · exact ih h item hrest hdir

theorem listed_iff_loads : Listed blobs entry basePath path ↔ Loads blobs entry path := by
  constructor
  · rintro ⟨fuel, result, h⟩
    induction fuel generalizing path result with
    | zero => cases h
    | succ fuel ih =>
        unfold lsDeepFrom at h
        cases hls : ls blobs entry path with
        | error fault =>
            rw [hls] at h
            cases h
        | ok items =>
            rw [hls] at h
            apply Loads.listed hls
            intro item hitem hdir
            obtain ⟨subItems, hsub⟩ := listed_of_deepItems_ok h item hitem hdir
            exact ih _ hsub
  · intro h
    induction h with
    | @listed path items hls hbelow ih =>
        obtain ⟨fuel, hitems⟩ := exists_deepItems_ok ih
        obtain ⟨result, hresult⟩ := hitems fuel le_rfl KeyedMap.empty
        refine ⟨fuel + 1, result, ?_⟩
        unfold lsDeepFrom
        rw [hls]
        exact hresult

/-! ## Listings that return -/

/-- Names that are single components are appended. -/
theorem ls_eq_ls (h : ∀ node, walkNode blobs entry (path.tail.map Component.toName) = some node →
      ∀ item ∈ node.links.toList, ValidName item.1) :
    ls blobs entry path = JaxFs.ls blobs entry path := by
  have hitems : ∀ node, walkNode blobs entry (path.tail.map Component.toName) = some node →
      ∀ items : FinMap Path NodeLink,
        node.links.toList.foldl (fun items item => items.put (Path.push path.tail item.1) item.2)
          items =
        node.links.toList.foldl
          (fun items item => items.put (path.tail ++ [.normal item.1]) item.2) items := by
    intro node hnode items
    apply List.foldl_ext
    intro items item hitem
    rw [(h node hnode item hitem).push]
  unfold ls JaxFs.ls cleanPath
  by_cases habs : path.isAbsolute = true
  · simp only [habs, if_true, bind, Except.bind]
    by_cases hroot : path.tail = []
    · rw [hroot] at hitems ⊢
      exact congrArg _ (hitems entry rfl _)
    · simp only [hroot, if_false]
      cases hread : getNodeAtPath blobs entry path.tail with
      | ok node => exact congrArg _ (hitems node (getNodeAtPathFrom_eq_ok.mp hread) _)
      | error fault =>
          obtain ⟨error, rfl⟩ := getNodeAtPathFrom_error hread
          cases error <;> rfl
  · simp [habs, bind, Except.bind]

/-! ## What is listed -/

/-- A listing shows the entries of the node at its path. -/
theorem exists_node_of_ls {names : List Name} {items : FinMap Path NodeLink}
    (h : ls blobs entry (absPath names) = .ok items) :
    ∃ node, walkNode blobs entry names = some node ∧
      items = node.links.toList.foldl
        (fun (items : FinMap Path NodeLink) item => items.put ((relPath names).push item.1) item.2)
        KeyedMap.empty := by
  have hclean : cleanPath (absPath names) = .ok (relPath names) := rfl
  unfold ls at h
  simp only [hclean, bind, Except.bind] at h
  by_cases hroot : relPath names = []
  · rw [List.map_eq_nil_iff.mp hroot] at h ⊢
    cases h
    exact ⟨entry, rfl, rfl⟩
  · rw [if_neg hroot] at h
    cases hread : getNodeAtPath blobs entry (relPath names) with
    | ok node =>
        rw [hread] at h
        cases h
        exact ⟨node, getNodeAtPathFrom_eq_ok_iff.mp hread, rfl⟩
    | error fault =>
        obtain ⟨error, rfl⟩ := getNodeAtPathFrom_error hread
        rw [hread] at h
        cases error <;> cases h

omit P in
/-- The loop keeps what its items and the listings below them have. -/
theorem forall_deepItems {good : Path × NodeLink → Prop}
    {below : Path → Except Fault (FinMap Path NodeLink)} {items : List (Path × NodeLink)}
    {all result : FinMap Path NodeLink} (hall : ∀ item ∈ all, good item)
    (hitems : ∀ item ∈ items, good item)
    (hbelow : ∀ item ∈ items, item.2.isDir = true → ∀ subItems,
      below (absItemPath item.1) = .ok subItems → ∀ sub ∈ subItems, good sub)
    (h : deepItems below [] items all = .ok result) : ∀ item ∈ result, good item := by
  induction items generalizing all with
  | nil =>
      cases h
      exact hall
  | cons first rest ih =>
      obtain ⟨itemPath, link⟩ := first
      have hput : ∀ item ∈ all.put itemPath link, good item := by
        intro item hitem
        rcases KeyedMap.mem_insert.mp hitem with rfl | ⟨hold, -⟩
        · exact hitems _ List.mem_cons_self
        · exact hall item hold
      have hitems' := fun item hitem => hitems item (List.mem_cons_of_mem _ hitem)
      have hbelow' := fun item hitem => hbelow item (List.mem_cons_of_mem _ hitem)
      unfold deepItems at h
      simp only [relativeTo, List.isPrefixOf_nil_left, if_true, List.length_nil,
        List.drop_zero] at h
      by_cases hdir : link.isDir = true
      · rw [if_pos hdir] at h
        cases hsub : below (absItemPath itemPath) with
        | error fault =>
            rw [hsub] at h
            cases h
        | ok subItems =>
            rw [hsub] at h
            apply ih _ hitems' hbelow' h
            exact FinMap.forall_foldl_put hput
              (hbelow (itemPath, link) List.mem_cons_self hdir subItems hsub)
      · rw [if_neg hdir] at h
        exact ih hput hitems' hbelow' h

/-- A property of the nodes that the walk comes to gives one of the items. -/
theorem forall_lsDeepFrom {inv : List Name → Node → Prop} {good : Path × NodeLink → Prop}
    (hstep : ∀ names node, walkNode blobs entry names = some node → inv names node →
      ∀ name link, node.getLink name = some link →
      good ((relPath names).push name, link) ∧
      (link.isDir = true → ∃ names', (relPath names).push name = relPath names' ∧
        ∀ child, walkNode blobs entry names' = some child → inv names' child))
    {fuel : ℕ} {names : List Name} {items : FinMap Path NodeLink}
    (hnode : ∀ node, walkNode blobs entry names = some node → inv names node)
    (h : lsDeepFrom blobs entry [] fuel (absPath names) = .ok items) :
    ∀ item ∈ items, good item := by
  induction fuel generalizing names items with
  | zero => cases h
  | succ fuel ih =>
      unfold lsDeepFrom at h
      cases hls : ls blobs entry (absPath names) with
      | error fault =>
          rw [hls] at h
          cases h
      | ok listed =>
          rw [hls] at h
          obtain ⟨node, hwalk, hlisted⟩ := exists_node_of_ls hls
          have hlinks : ∀ item ∈ listed, good item ∧ (item.2.isDir = true → ∃ names',
              item.1 = relPath names' ∧
                ∀ child, walkNode blobs entry names' = some child → inv names' child) := by
            rw [hlisted]
            apply FinMap.forall_foldl_put
            · intro item hitem
              exact absurd hitem KeyedMap.not_mem_empty
            · intro item hitem
              exact hstep names node hwalk (hnode node hwalk) item.1 item.2
                (FinMap.get?_eq_some_iff.mpr hitem)
          refine forall_deepItems ?_ ?_ ?_ h
          · intro item hitem
            exact absurd hitem KeyedMap.not_mem_empty
          · exact fun item hitem => (hlinks item hitem).1
          · intro item hitem hdir subItems hsub
            obtain ⟨names', hpath, hnode'⟩ := (hlinks item hitem).2 hdir
            rw [hpath, absItemPath_relPath] at hsub
            exact ih hnode' hsub

theorem forall_lsDeep {inv : List Name → Node → Prop} {good : Path × NodeLink → Prop}
    (hstep : ∀ names node, walkNode blobs entry names = some node → inv names node →
      ∀ name link, node.getLink name = some link →
      good ((relPath names).push name, link) ∧
      (link.isDir = true → ∃ names', (relPath names).push name = relPath names' ∧
        ∀ child, walkNode blobs entry names' = some child → inv names' child))
    (hroot : inv [] entry) {fuel : ℕ} {items : FinMap Path NodeLink}
    (h : lsDeep fuel blobs entry [.rootDir] = .ok items) : ∀ item ∈ items, good item := by
  have hlist : lsDeepFrom blobs entry [] fuel (absPath []) = .ok items := h
  refine forall_lsDeepFrom hstep ?_ hlist
  intro node hnode
  cases hnode
  exact hroot

end

end Mount

end

end JaxFs

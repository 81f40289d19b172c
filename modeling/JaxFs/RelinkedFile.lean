import JaxFs.TreeRefinement

/-!
# A file in a new place

What a reader sees of a tree: the paths, which of them are directories, and the bytes of the
files.  A file that is linked in a new place, and a copy of it with another link there, look
the same, and so does everything else as long as no store has a blob that the other lacks.
-/

namespace JaxFs

section

variable [P : Primitives]

/-- The same paths are found, as files or as directories, and read the same bytes. -/
structure SameFiles (blobs blobs' : Blobs) (entry entry' : Node) : Prop where
  kinds : ∀ names, (get blobs' entry' (absPath names)).toOption.map NodeLink.isDir =
    (get blobs entry (absPath names)).toOption.map NodeLink.isDir
  contents : ∀ names, (cat blobs' entry' (absPath names)).toOption =
    (cat blobs entry (absPath names)).toOption

/-- The bytes behind a link, those of a directory left out. -/
def fileBytes (blobs : Blobs) : NodeLink → Option Bytes
  | .dir _ _ => none
  | .data link secret _ => (blobs link.hash).bind secret.decrypt

def appearance (blobs : Blobs) (link : NodeLink) : Bool × Option Bytes :=
  (link.isDir, fileBytes blobs link)

section

variable {blobs blobs' : Blobs} {entry entry' : Node} {link : NodeLink}

theorem toOption_get (names : List Name) :
    (get blobs entry (absPath names)).toOption = findLink blobs entry names := by
  cases hget : get blobs entry (absPath names) with
  | ok link => exact (get_eq_ok_iff.mp hget).symm
  | error fault =>
      cases hlink : findLink blobs entry names with
      | none => rfl
      | some link =>
          rw [get_eq_ok_iff.mpr hlink] at hget
          contradiction

theorem toOption_cat (names : List Name) :
    (cat blobs entry (absPath names)).toOption =
      (findLink blobs entry names).bind (fileBytes blobs) := by
  have hread : ∀ data, cat blobs entry (absPath names) = .ok data ↔
      (findLink blobs entry names).bind (fileBytes blobs) = some data := by
    intro data
    rw [cat_absPath, Option.bind_eq_some_iff]
    constructor
    · intro ⟨link, secret, mime, blob, hlink, hblob, hdata⟩
      exact ⟨_, hlink, by simp [fileBytes, hblob, hdata]⟩
    · intro ⟨link, hlink, hdata⟩
      cases link with
      | dir link secret => contradiction
      | data link secret mime =>
          obtain ⟨blob, hblob, hdata⟩ := Option.bind_eq_some_iff.mp hdata
          exact ⟨link, secret, mime, blob, hlink, hblob, hdata⟩
  cases hcat : cat blobs entry (absPath names) with
  | ok data => exact ((hread data).mp hcat).symm
  | error fault =>
      cases hbytes : (findLink blobs entry names).bind (fileBytes blobs) with
      | none => rfl
      | some data =>
          rw [(hread data).mpr hbytes] at hcat
          contradiction

theorem sameFiles_of_appearance
    (h : ∀ names, (findLink blobs' entry' names).map (appearance blobs') =
      (findLink blobs entry names).map (appearance blobs)) :
    SameFiles blobs blobs' entry entry' := by
  constructor
  · intro names
    have hkind := congrArg (Option.map Prod.fst) (h names)
    rw [Option.map_map, Option.map_map] at hkind
    rw [toOption_get, toOption_get]
    exact hkind
  · intro names
    have hbytes := congrArg (fun found => found.bind Prod.snd) (h names)
    rw [Option.bind_map, Option.bind_map] at hbytes
    rw [toOption_cat, toOption_cat]
    exact hbytes

theorem appearance_congr (h : blobs' link.link.hash = blobs link.link.hash) :
    appearance blobs' link = appearance blobs link := by
  unfold appearance
  cases link with
  | dir link secret => rfl
  | data link secret mime =>
      rw [NodeLink.link] at h
      rw [fileBytes, fileBytes, h]

theorem appearance_of_isDir (h : link.isDir = true) : appearance blobs link = (true, none) := by
  cases link with
  | dir link secret => rfl
  | data link secret mime => contradiction

theorem SameBlobs.map_appearance (h : SameBlobs blobs blobs' entry) (names : List Name) :
    (findLink blobs' entry names).map (appearance blobs') =
      (findLink blobs entry names).map (appearance blobs) := by
  rw [h.findLink_eq]
  cases hlink : findLink blobs entry names with
  | none => rfl
  | some link => exact congrArg some (appearance_congr (h names link hlink))

/-- The tree behind a link of the tree. -/
theorem SameBlobs.of_findLink (h : SameBlobs blobs blobs' entry) {names : List Name}
    (hlink : findLink blobs entry names = some link) {child : Node}
    (hload : loadNode blobs link = some child) : SameBlobs blobs blobs' child := by
  intro rest found hfound
  apply h (names ++ rest)
  rw [findLink_append (findLink_ne_nil hfound), walkNode_of_findLink (findLink_ne_nil hlink),
    hlink, Option.bind_some, hload]
  exact hfound

end

section

variable {world world' world'' : World} {entry entry' : Node}

/-- What a later store has in the same places, a store on the way to it has there too. -/
theorem SameBlobs.between (h : SameBlobs world.blobs world''.blobs entry)
    (hgrows : Grows world world') (hgrows' : Grows world' world'') :
    SameBlobs world.blobs world'.blobs entry := by
  intro names link hlink
  cases hblob : world.blobs link.link.hash with
  | some blob => exact hgrows.blobs _ _ hblob
  | none =>
      cases hlater : world'.blobs link.link.hash with
      | none => rfl
      | some blob =>
          have hlast := h names link hlink
          rw [hgrows'.blobs _ _ hlater, hblob] at hlast
          contradiction

variable {parents : List Name} {name : Name} {parentNode : Node}

/-- The tree without an entry links to nothing new that could be missing. -/
theorem SameBlobs.removed (h : SameBlobs world.blobs world''.blobs entry)
    (hgrows : Grows world world') (hgrows' : Grows world' world'')
    (hparent : walkNode world.blobs entry parents = some parentNode)
    (hreplaced : NodeReplaced world'.blobs parents (parentNode.del name).2 entry entry') :
    SameBlobs world'.blobs world''.blobs entry' := by
  have hbetween := h.between hgrows hgrows'
  intro path link hlink
  by_cases habove : path <+: parents
  · obtain ⟨found, hfound, hdir⟩ := hreplaced.above path (findLink_ne_nil hlink) habove
    rw [hlink] at hfound
    cases hfound
    obtain ⟨node, hnode⟩ := Option.isSome_iff_exists.mp hdir.2
    obtain ⟨blob, hblob⟩ := stored_of_loadNode hnode
    rw [hblob]
    exact hgrows'.blobs _ _ hblob
  · have hbelow : ¬ parents ++ [name] <+: path := by
      rintro ⟨rest, rfl⟩
      rw [findLink_removed hreplaced] at hlink
      contradiction
    rw [findLink_of_removed hbetween hgrows hparent hreplaced habove hbelow] at hlink
    rw [h path link hlink, hbetween path link hlink]

end

/-! ## Two links to one file -/

/-- The bytes behind a link to a file. -/
structure HoldsBytes (blobs : Blobs) (link : NodeLink) (data : Bytes) : Prop where
  file : link.isDir = false
  bytes : fileBytes blobs link = some data

theorem HoldsBytes.loadNode_eq {blobs : Blobs} {link : NodeLink} {data : Bytes}
    (h : HoldsBytes blobs link data) : loadNode blobs link = P.decodeNode data := by
  cases link with
  | dir link secret =>
      have hfile := h.file
      contradiction
  | data link secret mime =>
      obtain ⟨blob, hblob, hdata⟩ := Option.bind_eq_some_iff.mp h.bytes
      unfold loadNode JaxFs.getNodeFromBlobs
      simp only [NodeLink.link, NodeLink.secret, hblob, hdata]
      cases P.decodeNode data <;> rfl

theorem HoldsBytes.grows {world world' : World} {link : NodeLink} {data : Bytes}
    (h : HoldsBytes world.blobs link data) (hgrows : Grows world world') :
    HoldsBytes world'.blobs link data := by
  refine ⟨h.file, ?_⟩
  cases link with
  | dir link secret =>
      have hfile := h.file
      contradiction
  | data link secret mime =>
      obtain ⟨blob, hblob, hdata⟩ := Option.bind_eq_some_iff.mp h.bytes
      rw [fileBytes, hgrows.blobs _ _ hblob]
      exact hdata

theorem cat_eq_ok_iff_holdsBytes {blobs : Blobs} {entry : Node} {names : List Name}
    {data : Bytes} : cat blobs entry (absPath names) = .ok data ↔
      ∃ link, findLink blobs entry names = some link ∧ HoldsBytes blobs link data := by
  have hread := @toOption_cat _ blobs entry names
  constructor
  · intro hcat
    rw [hcat] at hread
    obtain ⟨link, hlink, hbytes⟩ := Option.bind_eq_some_iff.mp hread.symm
    cases link with
    | dir link secret => contradiction
    | data link secret mime => exact ⟨_, hlink, rfl, hbytes⟩
  · intro ⟨link, hlink, hholds⟩
    rw [hlink, Option.bind_some, hholds.bytes] at hread
    exact Except.eq_ok_of_toOption hread

/-- One tree in two stores, with links to the same bytes at the same place. -/
theorem sameFiles_of_updated {start world moved copied : World} {removed entry' entry'' : Node}
    {names : List Name} {name : Name} {file copy : NodeLink} {data : Bytes}
    (hmoved : SameBlobs world.blobs moved.blobs removed)
    (hcopied : SameBlobs world.blobs copied.blobs removed)
    (hupdated : Updated moved.blobs file names name removed entry')
    (hupdated' : Updated copied.blobs copy names name removed entry'')
    (hfile : HoldsBytes moved.blobs file data) (hcopy : HoldsBytes copied.blobs copy data)
    (hbelow : ∀ child, P.decodeNode data = some child →
      SameBlobs start.blobs moved.blobs child ∧ SameBlobs start.blobs copied.blobs child) :
    SameFiles moved.blobs copied.blobs entry' entry'' := by
  apply sameFiles_of_appearance
  intro path
  by_cases hat : names ++ [name] <+: path
  · obtain ⟨rest, rfl⟩ := hat
    by_cases hrest : rest = []
    · rw [hrest, List.append_nil, hupdated.findLink_self, hupdated'.findLink_self]
      simp only [Option.map_some, appearance, hfile.file, hfile.bytes, hcopy.file, hcopy.bytes]
    · -- something is read there only when the bytes are a node
      rw [hupdated.findLink_below hrest, hupdated'.findLink_below hrest, hfile.loadNode_eq,
        hcopy.loadNode_eq]
      cases hnode : P.decodeNode data with
      | none => rfl
      | some child =>
          obtain ⟨hchild, hchild'⟩ := hbelow child hnode
          exact (hchild'.map_appearance rest).trans (hchild.map_appearance rest).symm
  · by_cases habove : path <+: names ++ [name]
    · rcases List.prefix_concat_iff.mp (by simpa using habove) with heq | hproper
      · exact absurd (by rw [heq]) hat
      · by_cases hroot : path = []
        · rw [hroot]
          rfl
        · obtain ⟨link, hlink, hdir⟩ := hupdated.isLoadableDir_of_prefix hroot hproper
          obtain ⟨link', hlink', hdir'⟩ := hupdated'.isLoadableDir_of_prefix hroot hproper
          rw [hlink, hlink', Option.map_some, Option.map_some, appearance_of_isDir hdir.1,
            appearance_of_isDir hdir'.1]
    · rw [hupdated.findLink_apart habove hat, hupdated'.findLink_apart habove hat,
        hmoved.map_appearance, hcopied.map_appearance]

/-! ## The two ways to get it there -/

/-- What `rename` does to the mount once it has read the file. -/
def copyTo (source target : Path) (data : Bytes) : MountM Unit := do
  rm source
  add target data

/-- The links above the directory of the source are directories. -/
def Removable (state : MountState) (source : List Name) : Prop :=
  ∀ ancestor, ancestor <+: source.dropLast → ancestor ≠ source.dropLast →
    ∀ link, state.get (absPath ancestor) = .ok link → link.isDir = true

/-- What lies on the way to the target is a directory; the directory of the source is made
anew. -/
def WayClear (state : MountState) (source target : List Name) : Prop :=
  ∀ ancestor link, ancestor <+: target.dropLast → ancestor ≠ source.dropLast →
    state.get (absPath ancestor) = .ok link → IsLoadableDir state.world.blobs link

section

variable {world : World} {entry entry' parentNode : Node} {parents names : List Name}
  {name : Name}

/-- There is nothing left in the place of the removed entry. -/
theorem not_obstructed_of_removed {blobs : Blobs}
    (hreplaced : NodeReplaced blobs parents (parentNode.del name).2 entry entry')
    (hbelow : parents ++ [name] <+: names) : ¬ Obstructed blobs entry' names := by
  rw [not_obstructed_iff]
  intro ancestor hpre link hlink
  by_cases habove : ancestor <+: parents
  · obtain ⟨found, hfound, hdir⟩ := hreplaced.above ancestor (findLink_ne_nil hlink) habove
    rw [hlink] at hfound
    cases hfound
    exact hdir
  · exfalso
    have hinside : parents ++ [name] <+: ancestor := by
      rcases List.prefix_or_prefix_of_prefix hpre hbelow with hshort | hlong
      · rcases List.prefix_concat_iff.mp (by simpa using hshort) with heq | hproper
        · rw [heq]
        · exact absurd hproper habove
      · exact hlong
    obtain ⟨rest, rfl⟩ := hinside
    rw [findLink_removed hreplaced] at hlink
    contradiction

end

variable [LawfulPrimitives] {state : MountState} {parents : List Name} {name : Name}
  {parentNode : Node}

/-- The removal that both begin with. -/
theorem removal_cases
    (hparent : walkNode state.world.blobs state.inner.entry parents = some parentNode) :
    (¬ Removable state (parents ++ [name]) ∧ ∃ fault world',
      (replaceParent state.inner.entry (relPath parents) (parentNode.del name).2).run state =
        .error fault { state with world := world' } ∧ Grows state.world world') ∨
    (Removable state (parents ++ [name]) ∧ ∃ removed,
      (replaceParent state.inner.entry (relPath parents) (parentNode.del name).2).run state =
        .ok () removed ∧ Grows state.world removed.world ∧
      NodeReplaced removed.world.blobs parents (parentNode.del name).2 state.inner.entry
        removed.inner.entry) := by
  have hway := not_obstructed_dropLast_iff hparent
  unfold Removable
  rw [List.dropLast_concat, ← hway]
  rcases replaceParent_spec (parentNode.del name).2 hparent with
    ⟨hobstructed, hfails⟩ | ⟨hfree, removed, hrun, hgrows, -, hreplaced⟩
  · exact Or.inl ⟨not_not.mpr hobstructed, hfails⟩
  · exact Or.inr ⟨hfree, removed, hrun, hgrows, hreplaced⟩

omit [LawfulPrimitives] in
/-- The way to the target after the removal. -/
theorem obstructed_removed_iff {removed : MountState} {target names : List Name} {last : Name}
    (htarget : target = names ++ [last])
    (hparent : walkNode state.world.blobs state.inner.entry parents = some parentNode)
    (hremovable : Removable state (parents ++ [name]))
    (hgrows : Grows state.world removed.world)
    (hreplaced : NodeReplaced removed.world.blobs parents (parentNode.del name).2
      state.inner.entry removed.inner.entry)
    (hsame : SameBlobs state.world.blobs removed.world.blobs state.inner.entry)
    (hne : target ≠ parents ++ [name]) :
    ¬ Obstructed removed.world.blobs removed.inner.entry names ↔
      parents ++ [name] <+: target ∨ WayClear state (parents ++ [name]) target := by
  subst htarget
  by_cases hbelow : parents ++ [name] <+: names ++ [last]
  · apply iff_of_true _ (Or.inl hbelow)
    apply not_obstructed_of_removed hreplaced
    rcases List.prefix_concat_iff.mp (by simpa using hbelow) with heq | hproper
    · exact absurd (by simpa using heq.symm) hne
    · exact hproper
  · have houtside : ¬ parents ++ [name] <+: names := fun hpre =>
      hbelow (hpre.trans (List.prefix_append _ _))
    have hclear := not_obstructed_dropLast_iff hparent
    unfold Removable at hremovable
    rw [List.dropLast_concat, ← hclear] at hremovable
    rw [obstructed_of_removed_iff hsame hgrows hparent hreplaced hremovable houtside,
      or_iff_right hbelow]
    unfold WayClear MountState.get
    simp only [List.dropLast_concat, get_eq_ok_iff]
    push Not
    constructor
    · exact fun h ancestor link hpre hother hlink => h ancestor link hpre hother hlink
    · exact fun h ancestor link hpre hother hlink => h ancestor link hpre hother hlink

/-- What both need of the mount, for a source that is there. -/
structure Relinkable (state : MountState) (source target : List Name) : Prop where
  free : ¬ ∃ link, state.get (absPath target) = .ok link
  notRoot : target ≠ []
  removable : Removable state source
  clear : source <+: target ∨ WayClear state source target

/-- The removal is done, and the link of a file is in the new place. -/
structure Relinked (state : MountState) (source target : List Name) (file : NodeLink)
    (removed final : MountState) : Prop where
  removal : ∃ parents name parentNode, source = parents ++ [name] ∧
    walkNode state.world.blobs state.inner.entry parents = some parentNode ∧
    (replaceParent state.inner.entry (relPath parents) (parentNode.del name).2).run state =
      .ok () removed ∧
    NodeReplaced removed.world.blobs parents (parentNode.del name).2 state.inner.entry
      removed.inner.entry
  grows : Grows state.world removed.world
  later : Grows removed.world final.world
  updated : ∃ names last, target = names ++ [last] ∧
    Updated final.world.blobs file names last removed.inner.entry final.inner.entry

theorem mv_outcome {source target : List Name} {file : NodeLink}
    (hfile : findLink state.world.blobs state.inner.entry source = some file)
    (hsame : SameBlobs state.world.blobs
      ((mv (absPath source) (absPath target)).run state).state.world.blobs state.inner.entry) :
    (¬ (¬ source <+: target ∧ Relinkable state source target) ∧ ∃ fault state',
      (mv (absPath source) (absPath target)).run state = .error fault state') ∨
    ((¬ source <+: target ∧ Relinkable state source target) ∧ ∃ removed state',
      (mv (absPath source) (absPath target)).run state = .ok () state' ∧
      Relinked state source target file removed state') := by
  rcases mv_cases state source target with ⟨hrefused, fault, hrun⟩ |
    ⟨houtside, hfree, parents, name, parentNode, nodeLink, rfl, hparent, hname, hrun⟩
  · left
    refine ⟨?_, fault, state, hrun⟩
    intro ⟨houtside, hrelinkable⟩
    rcases hrefused with hself | hmissing | htaken
    · exact houtside hself
    · exact hmissing ⟨file, get_eq_ok_iff.mpr hfile⟩
    · exact hrelinkable.free htaken
  · rw [findLink_append_singleton, hparent, Option.bind_some, hname] at hfile
    cases hfile
    rcases @removal_cases _ _ _ _ name _ hparent with
      ⟨hremovable, fault, world', hremove, -⟩ |
        ⟨hremovable, removed, hremove, hgrows, hreplaced⟩
    · left
      rw [EStateM.run_bind_of_error hremove] at hrun
      exact ⟨fun h => hremovable h.2.removable, fault, _, hrun⟩
    · rw [EStateM.run_bind_of_ok hremove] at hrun
      rcases List.eq_nil_or_concat target with rfl | ⟨names, last, rfl⟩
      · exact Or.inl ⟨fun h => h.2.notRoot rfl, .panic, removed, hrun⟩
      rw [List.concat_eq_append] at *
      have hne : names ++ [last] ≠ parents ++ [name] := fun heq =>
        houtside (heq ▸ List.prefix_rfl)
      rcases mvInsert_spec file (relPath (parents ++ [name])) (relPath (names ++ [last]))
        names last removed with ⟨hobstructed, fault, hinsert⟩ |
          ⟨hway, state', hinsert, hgrows', hupdated⟩
      · rw [hinsert] at hrun
        rw [hrun] at hsame
        have hiff := obstructed_removed_iff rfl hparent hremovable hgrows hreplaced hsame hne
        exact Or.inl ⟨fun h => hiff.mpr h.2.clear hobstructed, fault, removed, hrun⟩
      · rw [hinsert] at hrun
        rw [hrun] at hsame
        have hiff := obstructed_removed_iff rfl hparent hremovable hgrows hreplaced
          (hsame.between hgrows hgrows') hne
        right
        refine ⟨⟨houtside, hfree, by simp, hremovable, hiff.mp hway⟩, removed, state', hrun, ?_⟩
        exact ⟨⟨parents, name, parentNode, rfl, hparent, hremove, hreplaced⟩, hgrows, hgrows',
          names, last, rfl, hupdated⟩

theorem copyTo_outcome {source target : List Name} {file : NodeLink} {data : Bytes}
    (hfile : findLink state.world.blobs state.inner.entry source = some file)
    (hfree : ¬ ∃ link, state.get (absPath target) = .ok link)
    (hsame : SameBlobs state.world.blobs
      ((copyTo (absPath source) (absPath target) data).run state).state.world.blobs
        state.inner.entry) :
    (¬ Relinkable state source target ∧ ∃ fault state',
      (copyTo (absPath source) (absPath target) data).run state = .error fault state') ∨
    (Relinkable state source target ∧ ∃ removed state' copy,
      (copyTo (absPath source) (absPath target) data).run state = .ok () state' ∧
      HoldsBytes state'.world.blobs copy data ∧
      Relinked state source target copy removed state') := by
  rcases rm_cases state source with ⟨hmissing, -⟩ |
    ⟨parents, name, parentNode, link, rfl, hparent, hname, hrm⟩
  · exact absurd ⟨file, hfile⟩ hmissing
  have hne : target ≠ parents ++ [name] := by
    rintro rfl
    exact hfree ⟨file, get_eq_ok_iff.mpr hfile⟩
  unfold copyTo at hsame ⊢
  rcases @removal_cases _ _ _ _ name _ hparent with
    ⟨hremovable, fault, world', hremove, -⟩ |
      ⟨hremovable, removed, hremove, hgrows, hreplaced⟩
  · left
    rw [EStateM.run_bind_of_error hremove] at hrm
    rw [EStateM.run_bind_of_error hrm]
    exact ⟨fun h => hremovable h.removable, fault, _, rfl⟩
  · rw [EStateM.run_bind_of_ok hremove] at hrm
    let taken : MountState := { removed with
      inner := removed.inner.recordOp .remove (relPath (parents ++ [name])) none link.isDir }
    have hrm' : (rm (absPath (parents ++ [name]))).run state = .ok () taken := hrm
    rw [EStateM.run_bind_of_ok hrm'] at hsame ⊢
    obtain ⟨copied, secret, world', blob, hstore, hblob, hdata, hcases⟩ :=
      add_spec target data taken
    -- the copy is in the store before the way to the target is looked at
    have hway : ∀ {names : List Name} {last : Name} {final : World},
        target = names ++ [last] → Grows world' final →
        SameBlobs state.world.blobs final.blobs state.inner.entry →
        (¬ Obstructed world'.blobs taken.inner.entry names ↔
          parents ++ [name] <+: target ∨ WayClear state (parents ++ [name]) target) := by
      intro names last final htarget hlater hkeeps
      have hremains := hkeeps.removed hgrows (hstore.trans hlater) hparent hreplaced
      rw [← obstructed_removed_iff htarget hparent hremovable hgrows hreplaced
        (hkeeps.between hgrows (hstore.trans hlater)) hne]
      exact (hremains.between hstore hlater).obstructed_iff.not
    rcases hcases with ⟨hroot, fault, hadd⟩ | ⟨names, last, htarget, ⟨hobstructed, fault, hadd⟩ |
      ⟨hclear, state', hadd, hlater, hupdated⟩⟩
    · rw [hadd]
      exact Or.inl ⟨fun h => h.notRoot hroot, fault, _, rfl⟩
    · rw [hadd] at hsame ⊢
      have hiff := hway htarget (Grows.refl world') hsame
      exact Or.inl ⟨fun h => hiff.mpr h.clear hobstructed, fault, _, rfl⟩
    · rw [hadd] at hsame ⊢
      have hiff := hway htarget hlater hsame
      right
      refine ⟨⟨hfree, by simp [htarget], hremovable, hiff.mp hclear⟩, removed, state', _, rfl, ?_,
        ⟨parents, name, parentNode, rfl, hparent, hremove, hreplaced⟩, hgrows,
        hstore.trans hlater, names, last, htarget, hupdated⟩
      exact ⟨rfl, by simp [fileBytes, hlater.blobs _ _ hblob, hdata]⟩

omit [LawfulPrimitives] in
/-- The moved file and its copy make the same tree, also in later stores. -/
theorem sameFiles_of_relinked {source target : List Name} {file copy : NodeLink} {data : Bytes}
    {removed removed' moved copied : MountState} {world world' : World}
    (hfile : findLink state.world.blobs state.inner.entry source = some file)
    (hbytes : HoldsBytes state.world.blobs file data)
    (hcopy : HoldsBytes copied.world.blobs copy data)
    (hmoved : Relinked state source target file removed moved)
    (hcopied : Relinked state source target copy removed' copied)
    (hlater : Grows moved.world world) (hlater' : Grows copied.world world')
    (hsame : SameBlobs state.world.blobs world.blobs state.inner.entry)
    (hsame' : SameBlobs state.world.blobs world'.blobs state.inner.entry) :
    SameFiles world.blobs world'.blobs moved.inner.entry copied.inner.entry := by
  obtain ⟨parents, name, parentNode, rfl, hparent, hrun, hreplaced⟩ := hmoved.removal
  obtain ⟨parents', name', parentNode', heq, hparent', hrun', -⟩ := hcopied.removal
  obtain ⟨rfl, hname⟩ := List.append_inj' heq rfl
  cases hname
  rw [hparent] at hparent'
  cases hparent'
  rw [hrun] at hrun'
  cases hrun'
  obtain ⟨names, last, rfl, hupdated⟩ := hmoved.updated
  obtain ⟨names', last', heq, hupdated'⟩ := hcopied.updated
  obtain ⟨rfl, hlast⟩ := List.append_inj' heq rfl
  cases hlast
  have hgrows := hmoved.grows
  have hremains := hsame.removed hgrows (hmoved.later.trans hlater) hparent hreplaced
  have hremains' := hsame'.removed hgrows (hcopied.later.trans hlater') hparent hreplaced
  have hfinal := hgrows.trans (hmoved.later.trans hlater)
  apply sameFiles_of_updated hremains hremains' (hupdated.grows hlater)
    (hupdated'.grows hlater') (hbytes.grows hfinal) (hcopy.grows hlater')
  intro child hnode
  rw [← hbytes.loadNode_eq] at hnode
  exact ⟨hsame.of_findLink hfile hnode, hsame'.of_findLink hfile hnode⟩

end

end JaxFs

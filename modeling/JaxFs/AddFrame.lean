import JaxFs.AbsolutePaths
import JaxFs.DirectoriesOnly
import JaxFs.TreeRefinement

/-!
# What `add` leaves alone

`add` puts its link at the end of the path in the place of whatever was there, so a file
that is added over a directory takes the directory away with all its files.  Every other
file can be read as before: the nodes on the way are written anew with the links they had.
A part `..` is looked up under its own name and written under the empty one, which no path
leads to.
-/

namespace JaxFs

section

variable [P : Primitives]

/-! ## Rewritten trees -/

/-- The file at the names has the bytes. -/
def HasFile (blobs : Blobs) (node : Node) (names : List Name) (data : Bytes) : Prop :=
  ∃ link secret mime blob, findLink blobs node names = some (.data link secret mime) ∧
    blobs link.hash = some blob ∧ secret.decrypt blob = some data

section

variable {blobs : Blobs} {newLink link : NodeLink} {parts : Path} {name : Name}
  {names : List Name} {node node' : Node} {data : Bytes}

/-- A file that is not below the new link is still found, and below it as well when the
way to it is not that to the new link. -/
theorem Rewritten.findLink_file (h : Rewritten blobs newLink parts name node node')
    (hparts : WellFormed parts) (hnames : [] ∉ names)
    (haside : .parentDir ∈ parts ∨ ¬ parts.names ++ [name] <+: names)
    (hfile : link.isDir = false) (hlink : findLink blobs node names = some link) :
    findLink blobs node' names = some link := by
  induction h generalizing names with
  | @leaf name node =>
      cases names with
      | nil => contradiction
      | cons first rest =>
          have hne : name ≠ first := by
            rintro rfl
            rcases haside with hup | hbelow
            · exact absurd hup List.not_mem_nil
            · exact hbelow (by simp [Path.names])
          rw [findLink_insert_of_ne hne]
          exact hlink
  | @through part name parts node child child' dirLink secret hchild hload hrest ih =>
      cases names with
      | nil => contradiction
      | cons first rest =>
          have hbelow : WellFormed parts :=
            fun other hother => hparts other (List.mem_cons_of_mem _ hother)
          have hrestNames : [] ∉ rest := fun hmem => hnames (List.mem_cons_of_mem _ hmem)
          rcases hparts part List.mem_cons_self with rfl | ⟨next, rfl, hvalid⟩
          · -- the directory is written under the empty name
            have hne : [] ≠ first := by
              rintro rfl
              exact hnames List.mem_cons_self
            have hwritten : Component.writtenName .parentDir = [] := rfl
            rw [hwritten, findLink_insert_of_ne hne]
            exact hlink
          · rw [Component.writtenName]
            rw [Component.toName] at hchild
            by_cases hfirst : next = first
            · subst hfirst
              have hnonempty : rest ≠ [] := by
                rintro rfl
                have hdir : node.getLink next = some link := hlink
                unfold childNode at hchild
                rw [hdir] at hchild
                simp [hfile] at hchild
              rw [findLink_childNode hchild hnonempty] at hlink
              rw [findLink_insert_self hload hnonempty]
              apply ih hbelow hrestNames ?_ hlink
              rcases haside with hup | hnot
              · left
                simpa using hup
              · right
                intro hpre
                apply hnot
                simpa [Path.names, Component.toName] using hpre
            · rw [findLink_insert_of_ne hfirst]
              exact hlink

omit P in
theorem WellFormed.not_mem_nil (h : WellFormed parts) : [] ∉ parts.names := by
  intro hmem
  obtain ⟨part, hpart, hnil⟩ := List.mem_map.mp hmem
  rcases h part hpart with rfl | ⟨name, rfl, hvalid⟩
  · contradiction
  · exact hvalid.ne_nil hnil

omit P in
/-- The names tell the parts. -/
theorem WellFormed.prefix_of_names {parts' : Path} (h : WellFormed parts) (h' : WellFormed parts')
    (hpre : parts.names <+: parts'.names) : parts <+: parts' := by
  induction parts generalizing parts' with
  | nil => exact List.nil_prefix
  | cons part rest ih =>
      cases parts' with
      | nil => exact absurd (List.prefix_nil.mp hpre) (by simp [Path.names])
      | cons part' rest' =>
          obtain ⟨hname, hrest⟩ := List.cons_prefix_cons.mp hpre
          have hsame : part = part' := by
            rcases h part List.mem_cons_self with rfl | ⟨name, rfl, hvalid⟩
            · rcases h' part' List.mem_cons_self with rfl | ⟨name', rfl, hvalid'⟩
              · rfl
              · exact absurd hname.symm hvalid'.ne_dots
            · rcases h' part' List.mem_cons_self with rfl | ⟨name', rfl, hvalid'⟩
              · exact absurd hname hvalid.ne_dots
              · exact congrArg Component.normal hname
          rw [hsame]
          apply List.cons_prefix_cons.mpr ⟨rfl, ?_⟩
          exact ih (fun other hother => h other (List.mem_cons_of_mem _ hother))
            (fun other hother => h' other (List.mem_cons_of_mem _ hother)) hrest

omit P in
theorem exists_concat_append_iff {front rest : Path} (hrest : rest ≠ []) :
    (∃ parent name, front ++ rest = parent ++ [.normal name]) ↔
      ∃ parent name, rest = parent ++ [.normal name] := by
  constructor
  · intro ⟨parent, name, hends⟩
    obtain ⟨init, last, rfl⟩ := (List.eq_nil_or_concat rest).resolve_left hrest
    rw [List.concat_eq_append, ← List.append_assoc] at hends
    obtain ⟨-, hlast⟩ := List.append_inj' hends rfl
    exact ⟨init, name, by rw [List.concat_eq_append, hlast]⟩
  · rintro ⟨parent, name, rfl⟩
    exact ⟨front ++ parent, name, by rw [List.append_assoc]⟩

/-- A path that can be read as a file ends in a name. -/
theorem cat_eq_ok_iff_hasFile {path : Path} :
    cat blobs node (.rootDir :: path) = .ok data ↔
      (∃ parent name, path = parent ++ [.normal name]) ∧ HasFile blobs node path.names data := by
  rw [cat_eq_ok_iff]
  constructor
  · rintro ⟨parent, name, link, secret, mime, blob, hpath, hread⟩
    obtain rfl := (List.cons.inj hpath).2
    refine ⟨⟨parent, name, rfl⟩, link, secret, mime, blob, ?_⟩
    simpa [Path.names, Component.toName] using hread
  · rintro ⟨⟨parent, name, hpath⟩, link, secret, mime, blob, hread⟩
    refine ⟨parent, name, link, secret, mime, blob, by rw [hpath], ?_⟩
    simpa [hpath, Path.names, Component.toName] using hread

end

/-! ## One `add` -/

/-- The second path lies below the first. -/
def StrictlyBelow (p q : AbsolutePath) : Prop := p.parts <+: q.parts ∧ p.parts ≠ q.parts

/-- Every file at another path that could be read has the bytes that it had. -/
def KeepsOthers (state state' : MountState) (p : AbsolutePath) : Prop :=
  ∀ q : AbsolutePath, q.parts ≠ p.parts → ∀ content, state.cat q.path = .ok content →
    state'.cat q.path = .ok content

variable [LawfulPrimitives] {state state' : MountState} {p : AbsolutePath} {data : Bytes}

theorem add_rewrites (hrun : (add p.path data).run state = .ok () state') :
    ∃ parent name link secret blob, p.parts = parent ++ [.normal name] ∧
      Grows state.world state'.world ∧ state'.world.blobs link.hash = some blob ∧
      secret.decrypt blob = some data ∧
      Rewritten state'.world.blobs (.data link secret (P.mimeFromPath p.path)) parent name
        state.inner.entry state'.inner.entry := by
  obtain ⟨hash, secret, world', blob, hgrows, hblob, hdata, hstored⟩ := run_storeFile data state
  unfold add at hrun
  rw [hstored, run_getThe_bind] at hrun
  dsimp only at hrun
  cases hset : (setNodeLinkAtPath state.inner.entry
      (.data ⟨ldRawCodec, hash⟩ secret (P.mimeFromPath p.path)) p.path).run world' with
  | error fault world'' =>
      rw [EStateM.run_bind_of_error (run_onBlobs_of_error hset)] at hrun
      contradiction
  | ok result world'' =>
      obtain ⟨root, hashes⟩ := result
      rw [EStateM.run_bind_of_ok (run_onBlobs_of_ok hset)] at hrun
      obtain ⟨visited, name, hname, hvisited, hwrite⟩ := writeNodes_of_setNodeLinkAtPath hset
      obtain ⟨rootLink, rootSecret, created, written, entry', hrewrite, hgrows', hload,
        hrewritten⟩ := @writeNodes_rewrites _ _ _ name
          (.data ⟨ldRawCodec, hash⟩ secret (P.mimeFromPath p.path)) _ [.rootDir] _ _ _ hvisited
      rw [hwrite] at hrewrite
      cases hrewrite
      dsimp only at hrun
      rw [EStateM.run_bind_of_ok (run_reloadRoot hload)] at hrun
      cases hrun
      have hparts : p.parts = (Path.parent p.parts).getD [] ++ [.normal name] := by
        rcases p.wellFormed.cases with hnil | ⟨parent, hup⟩ | ⟨parent, last, hlast⟩
        · have hnone : p.parts.fileName = some name := hname
          rw [hnil] at hnone
          contradiction
        · have hnone : p.parts.fileName = some name := hname
          rw [hup] at hnone
          simp [Path.fileName] at hnone
        · have hsome : p.parts.fileName = some name := hname
          rw [hlast] at hsome ⊢
          simpa [Path.fileName, Path.parent] using hsome
      exact ⟨_, name, ⟨ldRawCodec, hash⟩, secret, blob, hparts, hgrows.trans hgrows',
        hgrows'.blobs _ _ hblob, hdata, hrewritten⟩

omit [LawfulPrimitives] in
/-- What can be read keeps its link and its bytes in a later store. -/
theorem HasFile.grows {world world' : World} (hgrows : Grows world world') {node : Node}
    {names : List Name} (h : HasFile world.blobs node names data) :
    HasFile world'.blobs node names data := by
  obtain ⟨link, secret, mime, blob, hlink, hblob, hdata⟩ := h
  exact ⟨link, secret, mime, blob, hgrows.findLink hlink, hgrows.blobs _ _ hblob, hdata⟩

/-- A file that does not lie behind the new link is read as before. -/
theorem cat_aside_of_add (hrun : (add p.path data).run state = .ok () state')
    {q : AbsolutePath} {content : Bytes}
    (haside : .parentDir ∈ p.parts ∨ ¬ p.parts <+: q.parts)
    (hcat : state.cat q.path = .ok content) : state'.cat q.path = .ok content := by
  obtain ⟨parent, name, link, secret, blob, hparts, hgrows, -, -, hrewritten⟩ :=
    add_rewrites hrun
  have hparent : WellFormed parent := by
    intro part hpart
    apply p.wellFormed part
    rw [hparts]
    exact List.mem_append_left _ hpart
  obtain ⟨hends, hfile⟩ := cat_eq_ok_iff_hasFile.mp hcat
  obtain ⟨found, key, mime, bytes, hlink, hread⟩ := hfile.grows hgrows
  apply cat_eq_ok_iff_hasFile.mpr ⟨hends, found, key, mime, bytes, ?_, hread⟩
  apply hrewritten.findLink_file hparent q.wellFormed.not_mem_nil ?_ rfl hlink
  rcases haside with hup | hbelow
  · left
    simpa [hparts] using hup
  · right
    intro hpre
    apply hbelow
    apply p.wellFormed.prefix_of_names q.wellFormed
    simpa [hparts, Path.names, Component.toName] using hpre

/-- Behind the new link a path goes on in the bytes, when they are a node. -/
theorem cat_below_of_add (hrun : (add p.path data).run state = .ok () state')
    (hstraight : .parentDir ∉ p.parts) {q : AbsolutePath} {content : Bytes}
    (hbelow : StrictlyBelow p q) :
    state'.cat q.path = .ok content ↔ ∃ node, P.decodeNode data = some node ∧
      cat state'.world.blobs node (.rootDir :: q.parts.drop p.parts.length) = .ok content := by
  obtain ⟨parent, name, link, secret, blob, hparts, -, hblob, hdata, hrewritten⟩ :=
    add_rewrites hrun
  obtain ⟨⟨rest, hrest⟩, hne⟩ := hbelow
  have hnonempty : rest ≠ [] := by
    rintro rfl
    rw [List.append_nil] at hrest
    exact hne hrest
  have hnamesRest : Path.names rest ≠ [] := fun hnil => hnonempty (List.map_eq_nil_iff.mp hnil)
  obtain ⟨parents, rfl⟩ : ∃ parents, parent = relPath parents := by
    apply WellFormed.exists_names
    · intro part hpart
      apply p.wellFormed part
      rw [hparts]
      exact List.mem_append_left _ hpart
    · simpa [hparts] using hstraight
  have hqNames : q.parts.names = parents ++ [name] ++ Path.names rest := by
    rw [← hrest, hparts]
    simp only [Path.names, List.map_append, map_toName_relPath, List.map_cons, List.map_nil,
      Component.toName]
  have hload : loadNode state'.world.blobs (.data link secret (P.mimeFromPath p.path)) =
      P.decodeNode data := by
    unfold loadNode getNodeFromBlobs
    simp only [NodeLink.link, NodeLink.secret, hblob, hdata]
    cases P.decodeNode data <;> rfl
  have hfile : HasFile state'.world.blobs state'.inner.entry q.parts.names content ↔
      ∃ node, P.decodeNode data = some node ∧
        HasFile state'.world.blobs node (Path.names rest) content := by
    unfold HasFile
    simp only [hqNames, hrewritten.updated.findLink_below hnamesRest, hload,
      Option.bind_eq_some_iff]
    constructor
    · rintro ⟨found, key, mime, bytes, ⟨node, hnode, hlink⟩, hread⟩
      exact ⟨node, hnode, found, key, mime, bytes, hlink, hread⟩
    · rintro ⟨node, hnode, found, key, mime, bytes, hlink, hread⟩
      exact ⟨found, key, mime, bytes, ⟨node, hnode, hlink⟩, hread⟩
  rw [← hrest, List.drop_left]
  unfold MountState.cat
  rw [AbsolutePath.path, cat_eq_ok_iff_hasFile, hfile, ← hrest,
    exists_concat_append_iff hnonempty]
  simp only [cat_eq_ok_iff_hasFile]
  constructor
  · rintro ⟨hends, node, hnode, hread⟩
    exact ⟨node, hnode, hends, hread⟩
  · rintro ⟨node, hnode, hends, hread⟩
    exact ⟨hends, node, hnode, hread⟩

/-- A file is added without loss exactly when no other file lies below the path, or the
bytes are a node that has all of them. -/
theorem add_keeps_others_iff (hrun : (add p.path data).run state = .ok () state') :
    (KeepsOthers state state' p ↔ .parentDir ∈ p.parts ∨
      ∀ (q : AbsolutePath) content, StrictlyBelow p q → state.cat q.path = .ok content →
        ∃ node, P.decodeNode data = some node ∧ cat state'.world.blobs node
          (.rootDir :: q.parts.drop p.parts.length) = .ok content) ∧
    (P.decodeNode data = none →
      (KeepsOthers state state' p ↔ .parentDir ∈ p.parts ∨
        ∀ (q : AbsolutePath) content, StrictlyBelow p q →
          state.cat q.path ≠ .ok content)) := by
  have hiff : KeepsOthers state state' p ↔ .parentDir ∈ p.parts ∨
      ∀ (q : AbsolutePath) content, StrictlyBelow p q → state.cat q.path = .ok content →
        ∃ node, P.decodeNode data = some node ∧ cat state'.world.blobs node
          (.rootDir :: q.parts.drop p.parts.length) = .ok content := by
    by_cases hstraight : .parentDir ∈ p.parts
    · simp only [hstraight, true_or, iff_true]
      exact fun q _ content hcat => cat_aside_of_add hrun (Or.inl hstraight) hcat
    · simp only [hstraight, false_or]
      constructor
      · intro hkeeps q content hbelow hcat
        exact (cat_below_of_add hrun hstraight hbelow).mp (hkeeps q hbelow.2.symm content hcat)
      · intro hdata q hne content hcat
        by_cases hpre : p.parts <+: q.parts
        · have hbelow : StrictlyBelow p q := ⟨hpre, hne.symm⟩
          exact (cat_below_of_add hrun hstraight hbelow).mpr (hdata q content hbelow hcat)
        · exact cat_aside_of_add hrun (Or.inr hpre) hcat
  refine ⟨hiff, ?_⟩
  intro hnone
  rw [hiff]
  simp [hnone]

end

namespace Reference

/-- A bucket with the file `/a/f`. -/
def directoryWithFile : MountState :=
  ((do mkdir (absPath ["a".toList]); add (absPath ["a".toList, "f".toList]) [1] :
    MountM Unit).run freshMount).state

/-- Nothing is in the way of a file in the root. -/
theorem run_add_in_root (name : Name) (data : Bytes) (state : MountState) :
    ∃ state', (add (absPath [name]) data).run state = .ok () state' := by
  obtain ⟨link, secret, world', blob, -, -, -, hadded⟩ := add_spec [name] data state
  rcases hadded with ⟨hnil, -⟩ | ⟨parents, last, hnames, ⟨hobstructed, -⟩ | ⟨-, state', hok, -⟩⟩
  · contradiction
  · obtain ⟨rfl, -⟩ := List.append_singleton_inj.mp
      (show [] ++ [name] = parents ++ [last] from hnames)
    exact absurd hobstructed (not_obstructed_nil _ _)
  · exact ⟨state', hok⟩

/-- A file at `/a` takes the directory away. -/
theorem overwritten_directory_loses_file :
    ∃ state', (add (AbsolutePath.parse "/a".toList).path [2]).run directoryWithFile =
        .ok () state' ∧
      ¬ KeepsOthers directoryWithFile state' (AbsolutePath.parse "/a".toList) := by
  have hcat : (directoryWithFile.cat (AbsolutePath.parse "/a/f".toList).path).toOption =
      some [1] := by
    decide +kernel
  have hnode : primitives.decodeNode [2] = none := rfl
  have hpath : (AbsolutePath.parse "/a".toList).path = absPath ["a".toList] := by decide
  have hbelow : StrictlyBelow (AbsolutePath.parse "/a".toList)
      (AbsolutePath.parse "/a/f".toList) := by
    unfold StrictlyBelow
    decide
  have hup : .parentDir ∉ (AbsolutePath.parse "/a".toList).parts := by decide
  obtain ⟨state', hrun⟩ := run_add_in_root "a".toList [2] directoryWithFile
  rw [← hpath] at hrun
  refine ⟨state', hrun, ?_⟩
  intro hkeeps
  have hafter := hkeeps _ hbelow.2.symm [1] (Except.eq_ok_of_toOption hcat)
  obtain ⟨node, hsome, -⟩ := (cat_below_of_add hrun hup hbelow).mp hafter
  rw [hnode] at hsome
  cases hsome

/-- A file beside the directory. -/
theorem file_beside_directory :
    ∃ state', (add (AbsolutePath.parse "/b".toList).path [2]).run directoryWithFile =
        .ok () state' ∧
      (KeepsOthers directoryWithFile state' (AbsolutePath.parse "/b".toList) ↔
        .parentDir ∈ (AbsolutePath.parse "/b".toList).parts ∨
          ∀ (q : AbsolutePath) content, StrictlyBelow (AbsolutePath.parse "/b".toList) q →
            directoryWithFile.cat q.path ≠ .ok content) := by
  have hnode : primitives.decodeNode [2] = none := rfl
  have hpath : (AbsolutePath.parse "/b".toList).path = absPath ["b".toList] := by decide
  obtain ⟨state', hrun⟩ := run_add_in_root "b".toList [2] directoryWithFile
  rw [← hpath] at hrun
  exact ⟨state', hrun, (add_keeps_others_iff hrun).2 hnode⟩

end Reference

end JaxFs

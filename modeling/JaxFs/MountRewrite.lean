import JaxFs.MountLookup

/-!
# Rewriting the tree

What `setNodeLinkAtPath` does to the tree.  It succeeds exactly when every link it
meets on the way is a directory that can be loaded, and then the rewritten nodes
form an `Updated` tree: the new link at the end of the path, loadable directories
on the way to it, and every other path as it was.
-/

namespace JaxFs

section

variable [P : Primitives]

/-! ## Growing stores -/

/-- The later world has every blob of the earlier one. -/
structure Grows (world world' : World) : Prop where
  blobs : ∀ hash data, world.blobs hash = some data → world'.blobs hash = some data
  rng : world.rng ≤ world'.rng

theorem Grows.refl (world : World) : Grows world world := ⟨fun _ _ h => h, le_rfl⟩

theorem Grows.trans {world world' world'' : World} (h : Grows world world')
    (h' : Grows world' world'') : Grows world world'' :=
  ⟨fun hash data hdata => h'.blobs hash data (h.blobs hash data hdata),
    h.rng.trans h'.rng⟩

theorem Grows.getNodeFromBlobs {world world' : World} (h : Grows world world')
    {link : NodeLink} {blob : Bytes} (hstored : world.blobs link.link.hash = some blob) :
    getNodeFromBlobs world'.blobs link = getNodeFromBlobs world.blobs link := by
  unfold JaxFs.getNodeFromBlobs
  rw [hstored, h.blobs _ _ hstored]

theorem stored_of_loadNode {blobs : Blobs} {link : NodeLink} {node : Node}
    (h : loadNode blobs link = some node) : ∃ blob, blobs link.link.hash = some blob := by
  cases hblob : blobs link.link.hash with
  | none => simp [loadNode, getNodeFromBlobs, hblob, Except.toOption] at h
  | some blob => exact ⟨blob, rfl⟩

theorem Grows.loadNode {world world' : World} (h : Grows world world')
    {link : NodeLink} {node : Node} (hload : loadNode world.blobs link = some node) :
    loadNode world'.blobs link = some node := by
  obtain ⟨blob, hblob⟩ := stored_of_loadNode hload
  unfold JaxFs.loadNode at hload ⊢
  rw [h.getNodeFromBlobs hblob]
  exact hload

theorem Grows.walkNode {world world' : World} (h : Grows world world')
    {node child : Node} {names : List Name}
    (hwalk : walkNode world.blobs node names = some child) :
    walkNode world'.blobs node names = some child := by
  induction names generalizing node with
  | nil => exact hwalk
  | cons first rest ih =>
      rw [JaxFs.walkNode] at hwalk ⊢
      obtain ⟨next, hnext, hrest⟩ := Option.bind_eq_some_iff.mp hwalk
      obtain ⟨link, hlink, hload⟩ := Option.bind_eq_some_iff.mp hnext
      rw [hlink, Option.bind_some, h.loadNode hload, Option.bind_some]
      exact ih hrest

theorem Grows.findLink {world world' : World} (h : Grows world world')
    {node : Node} {names : List Name} {link : NodeLink}
    (hfind : findLink world.blobs node names = some link) :
    findLink world'.blobs node names = some link := by
  rcases List.eq_nil_or_concat names with rfl | ⟨parents, name, rfl⟩
  · simp [JaxFs.findLink] at hfind
  · rw [List.concat_eq_append, findLink_append_singleton] at hfind ⊢
    obtain ⟨parent, hparent, hlink⟩ := Option.bind_eq_some_iff.mp hfind
    rw [h.walkNode hparent]
    exact hlink

/-! ## Puts -/

variable [LawfulPrimitives]

theorem grows_store (world : World) (data : Bytes) : Grows world (world.store data) := by
  refine ⟨?_, le_rfl⟩
  intro hash found hfound
  rw [World.blobs_store]
  by_cases heq : hash = P.hash data
  · subst heq
    have haddress := world.addressed _ found hfound
    rw [Function.update_self, LawfulPrimitives.hash_injective haddress]
  · rw [Function.update_of_ne heq]
    exact hfound

theorem grows_put (data : Bytes) : EStateM.Preserves Grows (put data) :=
  fun world => grows_store world data

omit [LawfulPrimitives] in
theorem grows_getrandom (size : ℕ) : EStateM.Preserves Grows (getrandom size) :=
  fun _ => ⟨fun _ _ h => h, Nat.le_succ _⟩

omit [LawfulPrimitives] in
/-- A node that has been put can be loaded under its secret. -/
theorem run_putNodeInBlobs (node : Node) (secret : Secret) (world : World) :
    ∃ nonce, nonce = P.random world.rng nonceSize ∧
      (putNodeInBlobs node secret).run world =
        .ok ⟨ldRawCodec, P.hash (secret.encrypt nonce (P.encodeNode node))⟩
          (World.store ⟨world.blobs, world.rng + 1, world.addressed⟩
            (secret.encrypt nonce (P.encodeNode node))) :=
  ⟨_, rfl, rfl⟩

theorem putNodeInBlobs_spec (node : Node) (secret : Secret) (world : World) :
    ∃ link world', (putNodeInBlobs node secret).run world = .ok link world' ∧
      Grows world world' ∧ loadNode world'.blobs (.dir link secret) = some node := by
  obtain ⟨nonce, hnonce, hrun⟩ := run_putNodeInBlobs node secret world
  refine ⟨_, _, hrun, ?_, ?_⟩
  · have hgrows := grows_store ⟨world.blobs, world.rng + 1, world.addressed⟩
      (secret.encrypt nonce (P.encodeNode node))
    exact ⟨hgrows.blobs, (Nat.le_succ _).trans hgrows.rng⟩
  · have hlength : nonce.length = nonceSize := by
      rw [hnonce]
      exact LawfulPrimitives.length_random _ _
    simp [loadNode, getNodeFromBlobs, NodeLink.link, NodeLink.secret,
      secret.decrypt_encrypt hlength, LawfulPrimitives.decode_encodeNode,
      Except.toOption]

/-! ## The way down -/

/-- A directory link that can be loaded. -/
def IsLoadableDir (blobs : Blobs) (link : NodeLink) : Prop :=
  link.isDir = true ∧ (loadNode blobs link).isSome = true

/-- A link on the way along the path is no loadable directory. -/
def Obstructed (blobs : Blobs) (node : Node) (names : List Name) : Prop :=
  ∃ ancestor link, ancestor <+: names ∧ findLink blobs node ancestor = some link ∧
    ¬ IsLoadableDir blobs link

omit [LawfulPrimitives] in
theorem not_obstructed_iff {blobs : Blobs} {node : Node} {names : List Name} :
    ¬ Obstructed blobs node names ↔ ∀ ancestor, ancestor <+: names → ∀ link,
      findLink blobs node ancestor = some link → IsLoadableDir blobs link := by
  unfold Obstructed
  push Not
  exact ⟨fun h ancestor hpre link => h ancestor link hpre,
    fun h ancestor link hpre => h ancestor hpre link⟩

omit [LawfulPrimitives] in
theorem not_obstructed_nil (blobs : Blobs) (node : Node) : ¬ Obstructed blobs node [] := by
  intro ⟨ancestor, link, hpre, hlink, _⟩
  rw [List.prefix_nil.mp hpre] at hlink
  simp [findLink] at hlink

/-- The node behind a name, an empty one where there is none. -/
def childNode (blobs : Blobs) (node : Node) (name : Name) : Option Node :=
  match node.getLink name with
  | none => some Node.default
  | some link => if link.isDir then loadNode blobs link else none

omit [LawfulPrimitives] in
theorem visitNodes_cons_iff {blobs : Blobs} {consumed : Path} {node : Node} {part : Component}
    {parts : Path} {visited : List (Path × Node)} :
    visitNodes blobs consumed node (part :: parts) = .ok visited ↔
      ∃ child rest, childNode blobs node part.toName = some child ∧
        visitNodes blobs (consumed ++ [part]) child parts = .ok rest ∧
        visited = (consumed ++ [part], child) :: rest := by
  rw [visitNodes]
  unfold childNode
  cases node.getLink part.toName with
  | none =>
      dsimp only
      cases hrest : visitNodes blobs (consumed ++ [part]) Node.default parts with
      | error fault => simp [hrest]
      | ok rest => simp [hrest, eq_comm]
  | some link =>
      cases link with
      | data link secret mime => simp [NodeLink.isDir]
      | dir link secret =>
          dsimp only
          rw [loadNode]
          cases hload : getNodeFromBlobs blobs (.dir link secret) with
          | error fault => simp [NodeLink.isDir, Except.toOption]
          | ok next =>
              simp only [NodeLink.isDir, Except.toOption, if_true, Option.some.injEq]
              cases hrest : visitNodes blobs (consumed ++ [part]) next parts with
              | error fault => simp [hrest]
              | ok rest => simp [hrest, eq_comm]

omit [LawfulPrimitives] in
theorem visitNodes_cons {blobs : Blobs} {consumed : Path} {node : Node} {name : Name}
    {names : List Name} {visited : List (Path × Node)} :
    visitNodes blobs consumed node (relPath (name :: names)) = .ok visited ↔
      ∃ child rest, childNode blobs node name = some child ∧
        visitNodes blobs (consumed ++ [.normal name]) child (relPath names) = .ok rest ∧
        visited = (consumed ++ [.normal name], child) :: rest := by
  rw [relPath_cons]
  exact visitNodes_cons_iff

omit [LawfulPrimitives] in
theorem findLink_default (blobs : Blobs) (names : List Name) :
    findLink blobs Node.default names = none := by
  cases names with
  | nil => rfl
  | cons first rest =>
      cases rest with
      | nil => rfl
      | cons next rest => rfl

omit [LawfulPrimitives] in
/-- Paths through a child are paths of the child. -/
theorem findLink_childNode {blobs : Blobs} {node child : Node} {name : Name}
    {names : List Name} (hchild : childNode blobs node name = some child)
    (hnames : names ≠ []) :
    findLink blobs node (name :: names) = findLink blobs child names := by
  rw [findLink_cons hnames]
  unfold childNode at hchild
  cases hlink : node.getLink name with
  | none =>
      rw [hlink] at hchild
      cases hchild
      rw [findLink_default]
      rfl
  | some link =>
      rw [hlink] at hchild
      dsimp only at hchild
      split_ifs at hchild
      rw [Option.bind_some, hchild]
      rfl

omit [LawfulPrimitives] in
/-- The way down succeeds when every link on it is a loadable directory. -/
theorem visitNodes_ok_iff {blobs : Blobs} {consumed : Path} {node : Node}
    {names : List Name} :
    (∃ visited, visitNodes blobs consumed node (relPath names) = .ok visited) ↔
      ¬ Obstructed blobs node names := by
  rw [not_obstructed_iff]
  induction names generalizing consumed node with
  | nil =>
      constructor
      · intro _ ancestor hpre link hlink
        rw [List.prefix_nil.mp hpre] at hlink
        simp [findLink] at hlink
      · intro _
        exact ⟨[], rfl⟩
  | cons name names ih =>
      constructor
      · rintro ⟨visited, hvisited⟩
        obtain ⟨child, rest, hchild, hrest, -⟩ := visitNodes_cons.mp hvisited
        intro ancestor hpre link hlink
        cases ancestor with
        | nil => simp [findLink] at hlink
        | cons first below =>
            obtain ⟨rfl, hbelow⟩ := List.cons_prefix_cons.mp hpre
            cases below with
            | nil =>
                have hfirst : node.getLink first = some link := hlink
                unfold childNode at hchild
                rw [hfirst] at hchild
                dsimp only at hchild
                split_ifs at hchild with hdir
                exact ⟨hdir, by rw [hchild]; rfl⟩
            | cons second below =>
                rw [findLink_childNode hchild (by simp)] at hlink
                exact ih.mp ⟨rest, hrest⟩ (second :: below) hbelow link hlink
      · intro hall
        have hchild : ∃ child, childNode blobs node name = some child := by
          unfold childNode
          cases hlink : node.getLink name with
          | none => exact ⟨_, rfl⟩
          | some link =>
              have hgood := hall [name] (by simp) link hlink
              dsimp only
              rw [if_pos hgood.1]
              exact Option.isSome_iff_exists.mp hgood.2
        obtain ⟨child, hchild⟩ := hchild
        have hrest := (@ih (consumed ++ [.normal name]) child).mpr (by
          intro ancestor hpre link hlink
          cases ancestor with
          | nil => simp [findLink] at hlink
          | cons first below =>
              apply hall (name :: first :: below)
              · exact List.cons_prefix_cons.mpr ⟨rfl, hpre⟩
              · rw [findLink_childNode hchild (by simp)]
                exact hlink)
        obtain ⟨rest, hrest⟩ := hrest
        exact ⟨_, visitNodes_cons.mpr ⟨child, rest, hchild, hrest, rfl⟩⟩

/-! ## The way back -/

/-- The tree below `node'` is that below `node` with `newLink` at the end of the
path: the nodes on the way are new, and each leads to the next. -/
inductive Updated (blobs : Blobs) (newLink : NodeLink) :
    List Name → Name → Node → Node → Prop where
  | leaf {name : Name} {node : Node} :
      Updated blobs newLink [] name node (node.insert name newLink)
  | through {next name : Name} {names : List Name} {node child child' : Node}
      {link : Link} {secret : Secret} (hchild : childNode blobs node next = some child)
      (hload : loadNode blobs (.dir link secret) = some child')
      (hrest : Updated blobs newLink names name child child') :
      Updated blobs newLink (next :: names) name node
        (node.insert next (.dir link secret))

/-- The name that the write-back takes from a part of the path; one that is no name is
looked up but not written. -/
def Component.writtenName : Component → Name
  | .normal name => name
  | _ => []

/-- The same along a path of any parts. -/
inductive Rewritten (blobs : Blobs) (newLink : NodeLink) :
    Path → Name → Node → Node → Prop where
  | leaf {name : Name} {node : Node} :
      Rewritten blobs newLink [] name node (node.insert name newLink)
  | through {part : Component} {name : Name} {parts : Path} {node child child' : Node}
      {link : Link} {secret : Secret} (hchild : childNode blobs node part.toName = some child)
      (hload : loadNode blobs (.dir link secret) = some child')
      (hrest : Rewritten blobs newLink parts name child child') :
      Rewritten blobs newLink (part :: parts) name node
        (node.insert part.writtenName (.dir link secret))

omit [LawfulPrimitives] in
theorem Rewritten.updated {blobs : Blobs} {newLink : NodeLink} {names : List Name}
    {name : Name} {node node' : Node}
    (h : Rewritten blobs newLink (relPath names) name node node') :
    Updated blobs newLink names name node node' := by
  induction names generalizing node node' with
  | nil =>
      cases h
      exact Updated.leaf
  | cons next names ih =>
      rw [relPath_cons] at h
      cases h with
      | through hchild hload hrest => exact Updated.through hchild hload (ih hrest)

omit [LawfulPrimitives] in
theorem Grows.childNode {world world' : World} (h : Grows world world')
    {node child : Node} {name : Name}
    (hchild : childNode world.blobs node name = some child) :
    childNode world'.blobs node name = some child := by
  unfold JaxFs.childNode at hchild ⊢
  cases hlink : node.getLink name with
  | none =>
      rw [hlink] at hchild
      exact hchild
  | some link =>
      rw [hlink] at hchild
      dsimp only at hchild ⊢
      split_ifs at hchild with hdir
      rw [if_pos hdir]
      exact h.loadNode hchild

omit [LawfulPrimitives] in
theorem Updated.grows {world world' : World} (h : Grows world world')
    {newLink : NodeLink} {names : List Name} {name : Name} {node node' : Node}
    (hupdated : Updated world.blobs newLink names name node node') :
    Updated world'.blobs newLink names name node node' := by
  induction hupdated with
  | leaf => exact Updated.leaf
  | through hchild hload _ ih =>
      exact Updated.through (h.childNode hchild) (h.loadNode hload) ih

omit [LawfulPrimitives] in
theorem Rewritten.grows {world world' : World} (h : Grows world world')
    {newLink : NodeLink} {parts : Path} {name : Name} {node node' : Node}
    (hrewritten : Rewritten world.blobs newLink parts name node node') :
    Rewritten world'.blobs newLink parts name node node' := by
  induction hrewritten with
  | leaf => exact Rewritten.leaf
  | through hchild hload _ ih =>
      exact Rewritten.through (h.childNode hchild) (h.loadNode hload) ih

omit [LawfulPrimitives] in
/-- The last round of the loop writes the root. -/
theorem writeNodes_append (visited : List (Path × Node)) (path : Path) (node : Node)
    (name : Name) (nodeLink : NodeLink) :
    writeNodes (visited ++ [(path, node)]) name nodeLink = (do
      let (link, createdHashes) ← writeNodes visited name nodeLink
      let secret ← generateSecret
      let rootName := (visited.getLast?.map
        (fun last => last.1.fileName.getD [])).getD name
      let rootLink ← putNodeInBlobs (node.insert rootName link) secret
      pure (.dir rootLink secret, createdHashes ++ [rootLink.hash])) := by
  induction visited generalizing name nodeLink with
  | nil => simp [writeNodes]
  | cons first rest ih =>
      obtain ⟨firstPath, firstNode⟩ := first
      rw [List.cons_append, writeNodes, writeNodes]
      simp only [ih, bind_assoc, pure_bind]
      congr 1
      funext secret
      congr 1
      funext link
      congr 1
      funext written
      congr 1
      funext rootSecret
      cases rest with
      | nil => simp
      | cons second rest => simp [List.getLast?_cons]

omit [LawfulPrimitives] in
theorem run_generateSecret (world : World) :
    generateSecret.run world = .ok ⟨P.random world.rng secretSize⟩
      ⟨world.blobs, world.rng + 1, world.addressed⟩ := rfl

/-- One round of the loop, whatever follows it. -/
theorem writeRoot_spec (node : Node) (world : World) :
    ∃ link secret world', Grows world world' ∧
      loadNode world'.blobs (.dir link secret) = some node ∧
      ∀ {β : Type} (rest : Link → Secret → BlobM β), (do
        let secret ← generateSecret
        let link ← putNodeInBlobs node secret
        rest link secret).run world = (rest link secret).run world' := by
  let middle : World := ⟨world.blobs, world.rng + 1, world.addressed⟩
  obtain ⟨link, world', hput, hgrows, hload⟩ :=
    putNodeInBlobs_spec node ⟨P.random world.rng secretSize⟩ middle
  refine ⟨link, _, world', ⟨hgrows.blobs, (Nat.le_succ _).trans hgrows.rng⟩, hload, ?_⟩
  intro β rest
  rw [EStateM.run_bind_of_ok (run_generateSecret world), EStateM.run_bind_of_ok hput]

theorem writeNodes_rewrites {parts : Path} {name : Name} {newLink : NodeLink}
    {consumed path : Path} {node : Node} {visited : List (Path × Node)} {world : World}
    (hvisited : visitNodes world.blobs consumed node parts = .ok visited) :
    ∃ link secret hashes world' node',
      (writeNodes ((path, node) :: visited).reverse name newLink).run world =
        .ok (.dir link secret, hashes) world' ∧
      Grows world world' ∧
      loadNode world'.blobs (.dir link secret) = some node' ∧
      Rewritten world'.blobs newLink parts name node node' := by
  induction parts generalizing consumed path node visited with
  | nil =>
      cases hvisited
      obtain ⟨link, secret, world', hgrows, hload, hrun⟩ :=
        writeRoot_spec (node.insert name newLink) world
      refine ⟨link, secret, [link.hash], world', _, ?_, hgrows, hload, Rewritten.leaf⟩
      rw [List.reverse_singleton, writeNodes, hrun]
      rfl
  | cons next parts ih =>
      obtain ⟨child, rest, hchild, hrest, rfl⟩ := visitNodes_cons_iff.mp hvisited
      obtain ⟨childLink, childSecret, hashes, middle, child', hwrite, hgrows, hload,
        hrewritten⟩ := @ih _ (consumed ++ [next]) _ _ hrest
      obtain ⟨link, secret, world', hgrows', hload', hrun⟩ :=
        writeRoot_spec (node.insert next.writtenName (.dir childLink childSecret)) middle
      refine ⟨link, secret, hashes ++ [link.hash], world', _, ?_, hgrows.trans hgrows',
        hload', ?_⟩
      · have hname : (((consumed ++ [next], child) :: rest).reverse.getLast?.map
            (fun last => Path.fileName last.1 |>.getD [])).getD name = next.writtenName := by
          cases next <;> simp [Path.fileName, Component.writtenName]
        rw [List.reverse_cons, writeNodes_append, EStateM.run_bind_of_ok hwrite]
        dsimp only
        rw [hname, hrun]
        rfl
      · exact Rewritten.through ((hgrows.trans hgrows').childNode hchild)
          (hgrows'.loadNode hload) (hrewritten.grows hgrows')

theorem writeNodes_spec {names : List Name} {name : Name} {newLink : NodeLink}
    {consumed path : Path} {node : Node} {visited : List (Path × Node)} {world : World}
    (hvisited : visitNodes world.blobs consumed node (relPath names) = .ok visited) :
    ∃ link secret hashes world' node',
      (writeNodes ((path, node) :: visited).reverse name newLink).run world =
        .ok (.dir link secret, hashes) world' ∧
      Grows world world' ∧
      loadNode world'.blobs (.dir link secret) = some node' ∧
      Updated world'.blobs newLink names name node node' := by
  obtain ⟨link, secret, hashes, world', node', hrun, hgrows, hload, hrewritten⟩ :=
    @writeNodes_rewrites _ _ _ name newLink consumed path node visited world hvisited
  exact ⟨link, secret, hashes, world', node', hrun, hgrows, hload, hrewritten.updated⟩

/-- What `setNodeLinkAtPath` does on a path of names: it fails without writing, or
leaves an updated tree behind its root link. -/
theorem setNodeLinkAtPath_spec (node : Node) (newLink : NodeLink) (names : List Name)
    (name : Name) (world : World) :
    (Obstructed world.blobs node names ∧ ∃ error,
      (setNodeLinkAtPath node newLink (absPath (names ++ [name]))).run world =
        .error (.error error) world ∧ error.isMissingOrTaken = false) ∨
    (¬ Obstructed world.blobs node names ∧ ∃ link secret hashes world' node',
      (setNodeLinkAtPath node newLink (absPath (names ++ [name]))).run world =
        .ok (.dir link secret, hashes) world' ∧
      Grows world world' ∧
      loadNode world'.blobs (.dir link secret) = some node' ∧
      Updated world'.blobs newLink names name node node') := by
  have hrun : (setNodeLinkAtPath node newLink (absPath (names ++ [name]))).run world =
      (do
        let visited ← EStateM.ofExcept
          (visitNodes world.blobs [.rootDir] node (relPath names))
        writeNodes (([.rootDir], node) :: visited).reverse name newLink :
          BlobM (NodeLink × List Hash)).run world := by
    unfold setNodeLinkAtPath
    rw [cleanPath_absPath, EStateM.run_bind_of_ok (EStateM.run_ofExcept_ok _ _)]
    rw [relPath_fileName_append_singleton, relPath_parent_append_singleton]
    rfl
  rw [hrun]
  cases hvisit : visitNodes world.blobs [.rootDir] node (relPath names) with
  | error fault =>
      left
      obtain ⟨error, rfl, hother⟩ := visitNodes_error hvisit
      refine ⟨?_, error, rfl, hother⟩
      by_contra hfree
      obtain ⟨visited, hok⟩ := (@visitNodes_ok_iff _ _ [.rootDir] _ _).mpr hfree
      rw [hok] at hvisit
      contradiction
  | ok visited =>
      right
      refine ⟨visitNodes_ok_iff.mp ⟨visited, hvisit⟩, ?_⟩
      obtain ⟨link, secret, hashes, world', node', hwrite, hgrows, hload, hupdated⟩ :=
        @writeNodes_spec _ _ _ name newLink _ [.rootDir] _ _ _ hvisit
      exact ⟨link, secret, hashes, world', node', hwrite, hgrows, hload, hupdated⟩

/-! ## Lookups in an updated tree -/

section

variable {blobs : Blobs} {newLink : NodeLink} {names : List Name} {name : Name}
  {node node' : Node}

omit [LawfulPrimitives] in
theorem findLink_insert_self {link : NodeLink} {rest : List Name} {child : Node}
    (hload : loadNode blobs link = some child) (hrest : rest ≠ []) :
    findLink blobs (node.insert name link) (name :: rest) =
      findLink blobs child rest := by
  rw [findLink_cons hrest, Node.getLink_insert_self, Option.bind_some, hload]
  rfl

omit [LawfulPrimitives] in
theorem findLink_insert_of_ne {link : NodeLink} {first : Name} {rest : List Name}
    (hne : name ≠ first) :
    findLink blobs (node.insert name link) (first :: rest) =
      findLink blobs node (first :: rest) := by
  cases rest with
  | nil => simp [findLink, Node.getLink_insert, hne]
  | cons next rest => simp [findLink, Node.getLink_insert, hne]

omit [LawfulPrimitives] in
theorem Updated.findLink_self (h : Updated blobs newLink names name node node') :
    findLink blobs node' (names ++ [name]) = some newLink := by
  induction h with
  | leaf => simp [findLink]
  | through hchild hload hrest ih =>
      rw [List.cons_append, findLink_insert_self hload (by simp)]
      exact ih

omit [LawfulPrimitives] in
/-- The way to the new link consists of loadable directories. -/
theorem Updated.isLoadableDir_of_prefix (h : Updated blobs newLink names name node node')
    {ancestor : List Name} (hancestor : ancestor ≠ []) (hpre : ancestor <+: names) :
    ∃ link, findLink blobs node' ancestor = some link ∧ IsLoadableDir blobs link := by
  induction h generalizing ancestor with
  | leaf => exact absurd (List.prefix_nil.mp hpre) hancestor
  | @through next name names node child child' link secret hchild hload hrest ih =>
      cases ancestor with
      | nil => contradiction
      | cons first below =>
          obtain ⟨rfl, hbelow⟩ := List.cons_prefix_cons.mp hpre
          cases below with
          | nil =>
              refine ⟨.dir link secret, by simp [findLink], rfl, ?_⟩
              rw [hload]
              rfl
          | cons second below =>
              rw [findLink_insert_self hload (by simp)]
              exact ih (by simp) hbelow

omit [LawfulPrimitives] in
/-- Paths that are not on the way and not below the new link are as they were. -/
theorem Updated.findLink_apart
    (h : Updated blobs newLink names name node node') {path : List Name}
    (hnotAbove : ¬ path <+: names ++ [name]) (hnotBelow : ¬ names ++ [name] <+: path) :
    findLink blobs node' path = findLink blobs node path := by
  induction h generalizing path with
  | @leaf name node =>
      cases path with
      | nil => rfl
      | cons first rest =>
          have hne : name ≠ first := by
            rintro rfl
            exact hnotBelow (by simp)
          exact findLink_insert_of_ne hne
  | @through next name names node child child' link secret hchild hload hrest ih =>
      cases path with
      | nil => rfl
      | cons first rest =>
          by_cases hfirst : next = first
          · subst hfirst
            have hnonempty : rest ≠ [] := by
              rintro rfl
              exact hnotAbove (by simp)
            rw [findLink_insert_self hload hnonempty, findLink_childNode hchild hnonempty]
            apply ih
            · intro habove
              exact hnotAbove (List.cons_prefix_cons.mpr ⟨rfl, habove⟩)
            · intro hbelow
              exact hnotBelow (List.cons_prefix_cons.mpr ⟨rfl, hbelow⟩)
          · exact findLink_insert_of_ne hfirst

omit [LawfulPrimitives] in
/-- Below the new link lookups go through the node behind it. -/
theorem Updated.findLink_below (h : Updated blobs newLink names name node node')
    {rest : List Name} (hrest : rest ≠ []) :
    findLink blobs node' (names ++ [name] ++ rest) =
      (loadNode blobs newLink).bind (fun child => findLink blobs child rest) := by
  rw [findLink_append hrest, walkNode_of_findLink (by simp), h.findLink_self]
  rfl

end

end

end JaxFs

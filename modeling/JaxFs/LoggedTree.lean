import JaxFs.DirectoryView
import JaxFs.Export
import JaxFs.TreeRefinement

/-!
# The log of a mount and its tree

`resolve_all` decides for each path by the newest operation on that path alone.  A removal
or a move records nothing for the paths below its own, and a move nothing for its source.
The keys are those of the tree as long as no key lies where an operation takes something
away without saying so.
-/

namespace JaxFs

namespace PathOpLog

/-- The paths of `resolve_all`. -/
def keys (log : PathOpLog) : List Path := log.resolveAll.toList.map Prod.fst

theorem mem_keys_iff {log : PathOpLog} {path : Path} :
    path ∈ log.keys ↔
      ∃ winner, log.resolvePath path = some winner ∧ winner.opType ≠ .remove := by
  unfold keys
  rw [List.mem_map]
  constructor
  · rintro ⟨⟨_, winner⟩, hmem, rfl⟩
    exact ⟨winner, get?_resolveAll.mp (FinMap.get?_eq_some_iff.mpr hmem)⟩
  · intro ⟨winner, hwinner⟩
    exact ⟨(path, winner), FinMap.get?_eq_some_iff.mp (get?_resolveAll.mpr hwinner), rfl⟩

section

variable {log : PathOpLog} {peerId : PublicKey} {opType : OpType} {path : Path}
  {contentLink : Option Link} {isDir : Bool}

/-- A recorded operation decides for its path, and for no other. -/
theorem mem_keys_record (h : ClockRoom log 1) {other : Path} :
    other ∈ (log.record peerId opType path contentLink isDir).2.keys ↔
      if other = path then opType ≠ .remove else other ∈ log.keys := by
  rw [mem_keys_iff]
  split_ifs with hother
  · have hwins : (log.record peerId opType path contentLink isDir).2.resolvePath path =
        some ⟨⟨u64Succ log.localClock, peerId⟩, opType, path, contentLink, isDir⟩ := by
      rw [resolvePath_eq_some_iff]
      refine ⟨KeyedMap.mem_insert.mpr (Or.inl rfl), rfl, ?_⟩
      intro op hop _
      rcases KeyedMap.mem_insert.mp hop with rfl | ⟨hold, -⟩
      · exact le_rfl
      · have hahead := h.ahead op hold
        have hclock := u64Succ_of_lt h.bound
        apply Prod.Lex.le_iff.mpr
        left
        change op.id.timestamp < u64Succ log.localClock
        omega
    rw [hother, hwins]
    simp
  · rw [mem_keys_iff]
    have hsame : (log.record peerId opType path contentLink isDir).2.resolvePath other =
        log.resolvePath other := by
      apply resolvePath_congr
      rintro op rfl
      constructor
      · intro hop
        rcases KeyedMap.mem_insert.mp hop with rfl | ⟨hold, -⟩
        · exact absurd rfl hother
        · exact hold
      · exact h.mem_record
    rw [hsame]

end

end PathOpLog

section

variable [P : Primitives]

/-! ## What is recorded -/

/-- The run records one operation of the type on the path. -/
def RecordsAs (opType : OpType) (path : Path) (x : MountM Unit) : Prop :=
  ∀ state state', x.run state = .ok () state' → ∃ contentLink isDir,
    state'.inner.opsLog = (state.inner.opsLog.record state.inner.peerId opType path contentLink
      isDir).2

section

variable {opType : OpType} {path : Path}

theorem RecordsAs.bind {α : Type} {x : MountM α} {f : α → MountM Unit}
    (hx : EStateM.Preserves Untouched x) (hf : ∀ a, RecordsAs opType path (f a)) :
    RecordsAs opType path (x >>= f) := by
  intro state state' hrun
  obtain ⟨a, middle, hfirst, hrest⟩ := EStateM.run_bind_eq_ok_iff.mp hrun
  have hmiddle : Untouched state middle := hx.of_ok hfirst
  obtain ⟨contentLink, isDir, hlog⟩ := hf a middle state' hrest
  rw [hmiddle.opsLog, hmiddle.peerId] at hlog
  exact ⟨contentLink, isDir, hlog⟩

theorem RecordsAs.throw (fault : Fault) : RecordsAs opType path (throw fault) := by
  intro state state' hrun
  cases hrun

theorem RecordsAs.recordOp (f : MountInner → MountInner)
    (hlog : ∀ inner, (f inner).opsLog = inner.opsLog ∧ (f inner).peerId = inner.peerId)
    (contentLink : Option Link) (isDir : Bool) :
    RecordsAs opType path
      (modifyInner (fun inner => (f inner).recordOp opType path contentLink isDir)) := by
  intro state state' hrun
  cases hrun
  refine ⟨contentLink, isDir, ?_⟩
  obtain ⟨hopsLog, hpeer⟩ := hlog state.inner
  simp only [MountInner.recordOp, hopsLog, hpeer]

variable [LawfulPrimitives] {names : List Name}

theorem recordsAs_add (data : Bytes) :
    RecordsAs .add (relPath names) (add (absPath names) data) := by
  unfold add
  apply RecordsAs.bind (untouched_onBlobs grows_generateSecret)
  intro secret
  apply RecordsAs.bind (untouched_onBlobs (grows_encryptData _ _))
  intro encrypted
  apply RecordsAs.bind (untouched_onBlobs (grows_put _))
  intro hash
  apply RecordsAs.bind
  · exact Untouched.refl
  intro state
  apply RecordsAs.bind (untouched_onBlobs (grows_setNodeLinkAtPath _ _ _))
  intro updated
  apply RecordsAs.bind (untouched_reloadRoot _)
  intro newEntry
  rw [cleanPath_absPath]
  exact RecordsAs.recordOp
    (fun inner => (inner.addPins (hash :: updated.2)).setEntryNode (newEntry.getD inner.entry))
    (fun _ => ⟨rfl, rfl⟩) _ _

theorem recordsAs_mvInsert (nodeLink : NodeLink) (sourceClean target : Path) :
    RecordsAs (.mv sourceClean) (relPath names)
      (mvInsert nodeLink sourceClean target (relPath names)) := by
  unfold mvInsert
  apply RecordsAs.bind
  · exact Untouched.refl
  intro state
  apply RecordsAs.bind (untouched_onBlobs (grows_setNodeLinkAtPath _ _ _))
  intro updated
  apply RecordsAs.bind (untouched_readBlobs _)
  intro newEntry
  exact RecordsAs.recordOp (fun inner => (inner.addPins updated.2).setEntryNode newEntry)
    (fun _ => ⟨rfl, rfl⟩) _ _

end

/-! ## The invariant -/

/-- The keys, as paths of names. -/
def PathOpLog.names (log : PathOpLog) : Set (List Name) := {names | relPath names ∈ log.keys}

def MountState.view (state : MountState) : List Name → Option NodeLink :=
  linkAt state.world.blobs state.inner.entry

structure Logged (state : MountState) : Prop where
  tidy : MountOf Tidy state
  ahead : ∀ op ∈ state.inner.opsLog, op.id.timestamp ≤ state.inner.opsLog.localClock
  named : ∀ path ∈ state.inner.opsLog.keys, ∃ names, path = relPath names
  keys : KeysMatch NodeLink.isDir state.inner.opsLog.names state.view

section

variable {state state' : MountState} {opType : OpType} {place : List Name}

theorem Logged.clockRoom (h : Logged state) (hclock : state.inner.opsLog.localClock + 1 < 2 ^ 64) :
    PathOpLog.ClockRoom state.inner.opsLog 1 := ⟨h.ahead, hclock⟩

/-- The invariant after an operation that records something on its place. -/
theorem Logged.record (h : Logged state)
    (hclock : state.inner.opsLog.localClock + 1 < 2 ^ 64) (htidy : MountOf Tidy state')
    {contentLink : Option Link} {isDir : Bool}
    (hlog : state'.inner.opsLog = (state.inner.opsLog.record state.inner.peerId opType
      (relPath place) contentLink isDir).2)
    (hkeys : KeysMatch NodeLink.isDir
      (if opType = .remove then state.inner.opsLog.names \ {place}
        else insert place state.inner.opsLog.names) state'.view) : Logged state' := by
  have hroom := h.clockRoom hclock
  have hmem : ∀ path, path ∈ state'.inner.opsLog.keys ↔
      if path = relPath place then opType ≠ .remove else path ∈ state.inner.opsLog.keys := by
    intro path
    rw [hlog]
    exact PathOpLog.mem_keys_record hroom
  refine ⟨htidy, ?_, ?_, ?_⟩
  · rw [hlog]
    exact hroom.record.ahead
  · intro path hpath
    rw [hmem] at hpath
    split_ifs at hpath with hplace
    · exact ⟨place, hplace⟩
    · exact h.named path hpath
  · convert hkeys using 1
    ext names
    have hnames : names ∈ state'.inner.opsLog.names ↔
        if names = place then opType ≠ .remove else names ∈ state.inner.opsLog.names := by
      change relPath names ∈ state'.inner.opsLog.keys ↔ _
      rw [hmem]
      by_cases hplace : names = place
      · simp [hplace]
      · simp [hplace, relPath_injective.eq_iff, PathOpLog.names]
    rw [hnames]
    by_cases hplace : names = place <;> by_cases hremove : opType = .remove <;>
      simp [hplace, hremove]

/-- What is above a key is there. -/
theorem Logged.exists_view (h : Logged state) (hplace : place ≠ []) {path : List Name}
    (hpath : path ∈ state.inner.opsLog.names) (hpre : place <+: path) :
    ∃ link, state.view place = some link := by
  obtain ⟨rest, rfl⟩ := hpre
  obtain ⟨-, link, hlink⟩ := h.keys.found _ hpath
  exact exists_linkAt_of_append hplace hlink

end

/-! ## Paths without `..` -/

omit P in
theorem WellFormed.exists_names {parts : Path} (h : WellFormed parts) (hup : .parentDir ∉ parts) :
    ∃ names, parts = relPath names := by
  induction parts with
  | nil => exact ⟨[], rfl⟩
  | cons part rest ih =>
      obtain ⟨names, rfl⟩ := ih (fun other hother => h other (List.mem_cons_of_mem _ hother))
        (fun hmem => hup (List.mem_cons_of_mem _ hmem))
      rcases h part List.mem_cons_self with rfl | ⟨name, rfl, -⟩
      · exact absurd List.mem_cons_self hup
      · exact ⟨name :: names, rfl⟩

/-- No directory of such a tree has an entry `..`. -/
theorem TreeOf.not_parentDir {blobs : Blobs} {pins : Pins} {node child : Node}
    (h : TreeOf Tidy blobs pins node) {path : Path} (hdirs : ThroughDirs blobs node path)
    (hwalk : walkNode blobs node (path.map Component.toName) = some child) :
    .parentDir ∉ path := by
  induction path generalizing node with
  | nil => exact List.not_mem_nil
  | cons part rest ih =>
      rw [List.map_cons, walkNode] at hwalk
      obtain ⟨next, hnext, hbelow⟩ := Option.bind_eq_some_iff.mp hwalk
      obtain ⟨link, hlink, hload⟩ := Option.bind_eq_some_iff.mp hnext
      obtain ⟨hdir, hdirs'⟩ := hdirs link next hlink hload
      intro hmem
      rcases List.mem_cons.mp hmem with rfl | hrest
      · rcases (h.linkOf hlink).self with hvalid | ⟨hnil, -⟩
        · exact hvalid.ne_dots rfl
        · cases hnil
      · exact ih (h.of_childDir hlink hdir hload) hdirs' hbelow hrest

/-- An entry that is taken out of its parent has a path of names. -/
theorem exists_names_of_parent {state : MountState} (h : MountOf Tidy state) {p : AbsolutePath}
    {parent : Path} {name : Name} {parentNode : Node}
    (hparts : p.parts = parent ++ [.normal name])
    (hdirs : ParentThroughDirs state.world.blobs state.inner.entry p.path)
    (hread : getParentNode state.world.blobs state.inner.entry parent = .ok parentNode) :
    ∃ parents, parent = relPath parents ∧
      ThroughDirs state.world.blobs state.inner.entry (relPath parents) := by
  have hthrough : ThroughDirs state.world.blobs state.inner.entry parent := by
    apply hdirs p.parts parent rfl
    simp [hparts, Path.parent]
  have hup := TreeOf.not_parentDir h hthrough (getParentNode_eq_ok_iff.mp hread)
  have hwell : WellFormed parent :=
    fun part hpart => p.wellFormed part (hparts ▸ List.mem_append_left _ hpart)
  obtain ⟨parents, rfl⟩ := hwell.exists_names hup
  exact ⟨parents, rfl, hthrough⟩

theorem parts_of_rm {state state' : MountState} {p : AbsolutePath}
    (hrun : (rm p.path).run state = .ok () state') :
    ∃ parent name parentNode, p.parts = parent ++ [.normal name] ∧
      getParentNode state.world.blobs state.inner.entry parent = .ok parentNode := by
  have hclean : cleanPath p.path = .ok p.parts := rfl
  unfold rm at hrun
  rw [hclean, EStateM.run_bind_of_ok (EStateM.run_ofExcept_ok _ _)] at hrun
  cases hparent : p.parts.parent with
  | none =>
      rw [hparent] at hrun
      cases hrun
  | some parent =>
      simp only [hparent] at hrun
      rw [run_getThe_bind] at hrun
      cases hread : getParentNode state.world.blobs state.inner.entry parent with
      | error fault =>
          rw [EStateM.run_bind_of_error (run_readBlobs_of_error hread)] at hrun
          cases hrun
      | ok parentNode =>
          rw [EStateM.run_bind_of_ok (run_readBlobs_of_ok hread)] at hrun
          cases hname : p.parts.fileName with
          | none =>
              simp only [hname] at hrun
              cases hrun
          | some name =>
              have hsplit : parentAndName p.parts = .ok (some (parent, name)) := by
                unfold parentAndName
                rw [hparent, hname]
              exact ⟨parent, name, parentNode, parentAndName_eq_some_iff.mp hsplit, hread⟩

theorem parts_of_get {blobs : Blobs} {entry : Node} {p : AbsolutePath} {link : NodeLink}
    (hget : get blobs entry p.path = .ok link) :
    ∃ parent name parentNode, p.parts = parent ++ [.normal name] ∧
      getParentNode blobs entry parent = .ok parentNode := by
  have hclean : cleanPath p.path = .ok p.parts := rfl
  unfold get at hget
  rw [hclean] at hget
  obtain ⟨cleaned, hcleaned, hbody⟩ := Except.bind_eq_ok_iff.mp hget
  cases hcleaned
  obtain ⟨split, hsplit, hrest⟩ := Except.bind_eq_ok_iff.mp hbody
  cases split with
  | none => cases hrest
  | some split =>
      obtain ⟨parent, name⟩ := split
      obtain ⟨parentNode, hread, -⟩ := Except.bind_eq_ok_iff.mp hrest
      exact ⟨parent, name, parentNode, parentAndName_eq_some_iff.mp hsplit, hread⟩

theorem parts_of_mv {state state' : MountState} {source : AbsolutePath} {target : Path}
    (hrun : (mv source.path target).run state = .ok () state') :
    ∃ parent name parentNode, source.parts = parent ++ [.normal name] ∧
      getParentNode state.world.blobs state.inner.entry parent = .ok parentNode := by
  have hclean : cleanPath source.path = .ok source.parts := rfl
  unfold mv at hrun
  rw [hclean, EStateM.run_bind_of_ok (EStateM.run_ofExcept_ok _ _)] at hrun
  obtain ⟨targetClean, middle, htarget, hbody⟩ := EStateM.run_bind_eq_ok_iff.mp hrun
  obtain ⟨-, rfl⟩ := EStateM.run_ofExcept_eq_ok_iff.mp htarget
  split_ifs at hbody
  · cases hbody
  · rw [run_getThe_bind] at hbody
    cases hget : get middle.world.blobs middle.inner.entry source.path with
    | error fault =>
        rw [EStateM.run_bind_of_error (run_readBlobs_of_error hget)] at hbody
        cases hbody
    | ok link => exact parts_of_get hget

/-! ## One operation -/

section

variable [LawfulPrimitives] {state state' : MountState}

omit [LawfulPrimitives] in
theorem view_eq_of_grows (h : MountOf Tidy state) {world' : World}
    (hgrows : Grows state.world world') : linkAt world'.blobs state.inner.entry = state.view := by
  funext names
  exact TreeOf.linkAt_eq h hgrows

omit [LawfulPrimitives] in
theorem grafted_of_updated (h : MountOf Tidy state) (hgrows : Grows state.world state'.world)
    {newLink : NodeLink} {parents : List Name} {name : Name}
    (hupdated : Updated state'.world.blobs newLink parents name state.inner.entry
      state'.inner.entry) :
    Grafted NodeLink.isDir state.view state'.view (parents ++ [name])
      (linkBelow state'.world.blobs newLink) := by
  rw [← view_eq_of_grows h hgrows]
  exact hupdated.grafted

theorem Logged.add (h : Logged state) (hclock : state.inner.opsLog.localClock + 1 < 2 ^ 64)
    {names : List Name} {data : Bytes}
    (hbelow : ∀ path ∈ state.inner.opsLog.names, names <+: path → path = names)
    (htidy : MountOf Tidy state')
    (hrun : (JaxFs.add (absPath names) data).run state = .ok () state') : Logged state' := by
  obtain ⟨contentLink, isDir, hlog⟩ := recordsAs_add data state state' hrun
  obtain ⟨link, secret, world', blob, hgrows, -, -, hcases⟩ := add_spec names data state
  rcases hcases with ⟨-, fault, hfail⟩ | ⟨parents, name, rfl, ⟨-, fault, hfail⟩ |
    ⟨-, final, hok, hgrows', hupdated⟩⟩
  · rw [hrun] at hfail
    cases hfail
  · rw [hrun] at hfail
    cases hfail
  · rw [hrun] at hok
    cases hok
    apply h.record hclock htidy hlog
    rw [if_neg (by simp)]
    have hgraft := grafted_of_updated h.tidy (hgrows.trans hgrows') hupdated
    apply h.keys.graft hgraft (by simp) ⟨_, rfl⟩ _ hbelow
    intro rest found hrest hfound
    cases rest with
    | nil => contradiction
    | cons first rest => cases hfound

theorem Logged.mkdir (h : Logged state) (hclock : state.inner.opsLog.localClock + 1 < 2 ^ 64)
    {names : List Name} (htidy : MountOf Tidy state')
    (hrun : (JaxFs.mkdir (absPath names)).run state = .ok () state') : Logged state' := by
  rcases List.eq_nil_or_concat names with rfl | ⟨parents, name, rfl⟩
  · cases hrun
  rw [List.concat_eq_append] at hrun
  rcases mkdir_spec parents name state with ⟨-, path, hfail⟩ | ⟨-, -, error, world', hfail, -⟩ |
    ⟨final, hok, hmade, -, hlog⟩
  · rw [hrun] at hfail
    cases hfail
  · rw [hrun] at hfail
    cases hfail
  · rw [hrun] at hok
    cases hok
    obtain ⟨newLink, hdir, hload, hupdated⟩ := hmade.made
    apply h.record hclock htidy hlog
    rw [if_neg (by simp)]
    have hgraft := grafted_of_updated h.tidy hmade.grows hupdated
    apply h.keys.graft hgraft (by simp) ⟨newLink, rfl⟩
    · intro rest found hrest hfound
      cases rest with
      | nil => contradiction
      | cons first rest =>
          rw [linkBelow, dirNode, if_pos hdir, hload, Option.bind_some, linkAt_default] at hfound
          cases hfound
    · intro path hpath hpre
      obtain ⟨link, hlink⟩ := h.exists_view (by simp) hpath hpre
      have hfound := findLink_of_linkAt hlink
      rw [hmade.free] at hfound
      cases hfound

/-- The removal of an entry takes it out of the view, with all that is below it. -/
theorem grafted_of_replaceParent (h : MountOf Tidy state) {parents : List Name} {name : Name}
    {parentNode : Node}
    (hparent : walkNode state.world.blobs state.inner.entry parents = some parentNode)
    (hdirs : ThroughDirs state.world.blobs state.inner.entry (relPath parents))
    (hrun : (replaceParent state.inner.entry (relPath parents) (parentNode.del name).2).run
      state = .ok () state') :
    Grafted NodeLink.isDir state.view state'.view (parents ++ [name]) (fun _ => none) := by
  obtain ⟨link, secret, world', hgrows, hload, hstored⟩ :=
    run_storeNode (parentNode.del name).2 state
  rcases List.eq_nil_or_concat parents with rfl | ⟨above, last, rfl⟩
  · cases hparent
    rw [replaceParent, if_pos relPath_nil, hstored] at hrun
    cases hrun
    rw [← view_eq_of_grows h hgrows]
    exact grafted_del
  · rw [List.concat_eq_append] at *
    rw [replaceParent, if_neg (by simp), hstored, rootDir_relPath] at hrun
    rcases setNodeLinkAtPath_spec state.inner.entry (.dir link secret) above last world' with
      ⟨-, error, hset, -⟩ | ⟨-, root, rootSecret, hashes, world'', entry', hset, hgrows', hroot,
        hupdated⟩
    · rw [EStateM.run_bind_of_error (run_onBlobs_of_error hset)] at hrun
      cases hrun
    · rw [EStateM.run_bind_of_ok (run_onBlobs_of_ok hset)] at hrun
      dsimp only at hrun
      rw [EStateM.run_bind_of_ok (run_reloadRoot hroot)] at hrun
      cases hrun
      have hlater := hgrows.trans hgrows'
      have hgraft := hupdated.grafted
      rw [← view_eq_of_grows h hlater]
      apply grafted_of_del hgraft rfl (hgrows'.loadNode hload)
      intro rest hrest
      have hnode := TreeOf.of_getParentNode h hdirs
        (getParentNode_eq_ok_iff.mpr (by rw [map_toName_relPath]; exact hparent))
      rw [TreeOf.linkAt_eq h hlater, TreeOf.linkAt_eq hnode hlater]
      exact linkAt_append_of_throughDirs hparent hdirs hrest

theorem Logged.rm (h : Logged state) (hclock : state.inner.opsLog.localClock + 1 < 2 ^ 64)
    {parents : List Name} {name : Name}
    (hdirs : ThroughDirs state.world.blobs state.inner.entry (relPath parents))
    (hbelow : ∀ path ∈ state.inner.opsLog.names, parents ++ [name] <+: path →
      path = parents ++ [name])
    (htidy : MountOf Tidy state')
    (hrun : (JaxFs.rm (absPath (parents ++ [name]))).run state = .ok () state') :
    Logged state' := by
  rcases rm_cases state (parents ++ [name]) with ⟨-, fault, hfail⟩ |
    ⟨parents', name', parentNode, removed, heq, hparent, -, hsteps⟩
  · rw [hrun] at hfail
    cases hfail
  · obtain ⟨rfl, rfl⟩ := List.append_singleton_inj.mp heq
    rw [hrun] at hsteps
    have hrecords : RecordsAs .remove (relPath (parents ++ [name])) (do
        replaceParent state.inner.entry (relPath parents) (parentNode.del name).2
        modifyInner (fun inner =>
          inner.recordOp .remove (relPath (parents ++ [name])) none removed.isDir)) :=
      RecordsAs.bind (untouched_replaceParent _ _ _)
        (fun _ => RecordsAs.recordOp (fun inner => inner) (fun _ => ⟨rfl, rfl⟩) _ _)
    obtain ⟨contentLink, isDir, hlog⟩ := hrecords state state' hsteps.symm
    obtain ⟨_, middle, hremove, hrecord⟩ := EStateM.run_bind_eq_ok_iff.mp hsteps.symm
    have hgraft := grafted_of_replaceParent h.tidy hparent hdirs hremove
    cases hrecord
    apply h.record hclock htidy hlog
    rw [if_pos rfl]
    exact h.keys.prune hgraft hbelow

theorem Logged.mv (h : Logged state) (hclock : state.inner.opsLog.localClock + 1 < 2 ^ 64)
    {parents target : List Name} {name : Name}
    (hdirs : ThroughDirs state.world.blobs state.inner.entry (relPath parents))
    (hnames : ∀ name ∈ parents, ValidName name)
    (hsource : ∀ path ∈ state.inner.opsLog.names, ¬ parents ++ [name] <+: path)
    (htidy : MountOf Tidy state')
    (hrun : (JaxFs.mv (absPath (parents ++ [name])) (absPath target)).run state =
      .ok () state') : Logged state' := by
  rcases mv_cases state (parents ++ [name]) target with ⟨-, fault, hfail⟩ |
    ⟨houtside, hfree, parents', name', parentNode, nodeLink, heq, hparent, hname, hsteps⟩
  · rw [hrun] at hfail
    cases hfail
  obtain ⟨rfl, rfl⟩ := List.append_singleton_inj.mp heq
  rw [hrun] at hsteps
  obtain ⟨_, middle, hremove, hinsert⟩ := EStateM.run_bind_eq_ok_iff.mp hsteps.symm
  have hkept : Untouched state middle := (untouched_replaceParent _ _ _).of_ok hremove
  have hprune := grafted_of_replaceParent h.tidy hparent hdirs hremove
  have hkeys : KeysMatch NodeLink.isDir state.inner.opsLog.names middle.view := by
    have hpruned := h.keys.prune hprune (fun path hpath hpre => absurd hpre (hsource path hpath))
    rwa [Set.sdiff_singleton_eq_self (fun hmem => hsource _ hmem (List.prefix_refl _))] at hpruned
  have hnode := TreeOf.of_getParentNode h.tidy hdirs
    (getParentNode_eq_ok_iff.mpr (by rw [map_toName_relPath]; exact hparent))
  have hmiddle : MountOf Tidy middle := by
    have hpath : NamedBy ValidName (relPath parents) := by
      intro other hother
      obtain ⟨name', hname', hsame⟩ := List.mem_map.mp hother
      cases hsame
      exact hnames other hname'
    have hreplaced := mountOf_replaceParent tidyRules.toRewriteRules h.tidy hpath (hnode.del name)
    rw [hremove] at hreplaced
    exact hreplaced
  rcases List.eq_nil_or_concat target with rfl | ⟨above, last, rfl⟩
  · cases hinsert
  rw [List.concat_eq_append] at *
  obtain ⟨contentLink, isDir, hlog⟩ := recordsAs_mvInsert _ _ _ middle state' hinsert
  rw [hkept.opsLog, hkept.peerId] at hlog
  rcases mvInsert_spec nodeLink (relPath (parents ++ [name])) (relPath (above ++ [last])) above
    last middle with ⟨-, fault, hfail⟩ | ⟨-, final, hok, hgrows, hupdated⟩
  · rw [hinsert] at hfail
    cases hfail
  · rw [hinsert] at hok
    cases hok
    have hlater := hkept.grows.trans hgrows
    have hgraft := grafted_of_updated hmiddle hgrows hupdated
    apply h.record hclock htidy hlog
    rw [if_neg (by simp)]
    apply hkeys.graft hgraft (by simp) ⟨nodeLink, rfl⟩
    · -- a file in what is moved would have its key at its old path
      intro rest found _ hfound
      by_contra hfile
      have hold : state.view (parents ++ [name] ++ rest) = some found := by
        unfold MountState.view
        rw [List.append_assoc, List.singleton_append,
          linkAt_append_of_throughDirs hparent hdirs (by simp), ← TreeOf.linkAt_eq hnode hlater,
          linkAt_eq_linkBelow, hname, Option.bind_some]
        exact hfound
      exact hsource _ (h.keys.recorded _ _ hold (Bool.eq_false_of_not_eq_true hfile))
        (List.prefix_append _ _)
    · -- nothing is below a place that is free
      intro path hpath hpre
      have hnone : ∀ found, state.view (above ++ [last]) ≠ some found := by
        intro found hfound
        exact hfree ⟨found, get_eq_ok_iff.mpr (findLink_of_linkAt hfound)⟩
      have hsourceView : state.view (parents ++ [name]) = some nodeLink := by
        unfold MountState.view
        rw [linkAt_append_of_throughDirs hparent hdirs (by simp)]
        exact hname
      obtain ⟨rest, rfl⟩ := hpre
      obtain ⟨-, link, hlink⟩ := hkeys.found _ hpath
      obtain ⟨found, hfound⟩ := exists_linkAt_of_append (by simp) hlink
      have hnotAbove : ¬ above ++ [last] <+: parents ++ [name] := by
        rintro ⟨below, hbelow⟩
        rw [← hbelow] at hsourceView
        obtain ⟨old, hold⟩ := exists_linkAt_of_append (by simp) hsourceView
        exact hnone old hold
      have haside := hprune.aside _ hnotAbove houtside
      exact absurd (haside.symm.trans hfound) (hnone found)

/-! ## Runs -/

/-- Nothing that has a key goes away unrecorded. -/
def MountCall.KeepsKeys (state : MountState) : MountCall → Prop
  | .add p _ => .parentDir ∉ p.parts ∧
      ∀ path ∈ state.inner.opsLog.keys, p.parts <+: path → path = p.parts
  | .mkdir p => .parentDir ∉ p.parts
  | .rm p => ParentThroughDirs state.world.blobs state.inner.entry p.path ∧
      ∀ path ∈ state.inner.opsLog.keys, p.parts <+: path → path = p.parts
  | .mv source target => ParentThroughDirs state.world.blobs state.inner.entry source.path ∧
      .parentDir ∉ target.parts ∧ ∀ path ∈ state.inner.opsLog.keys, ¬ source.parts <+: path
  | _ => True

/-- A call that succeeds, with room in the clock, and keeps the keys. -/
structure MountCall.Follows (state : MountState) (call : MountCall) : Prop where
  succeeds : ∃ state', call.perform.run state = .ok () state'
  clock : state.inner.opsLog.localClock + 1 < 2 ^ 64
  keeps : call.KeepsKeys state

omit [LawfulPrimitives] in
theorem succeeds_iff {call : MountCall} :
    (call.perform.run state).okAnd (fun _ => true) = true ↔
      ∃ state', call.perform.run state = .ok () state' := by
  constructor
  · intro h
    obtain ⟨_, state', hrun, -⟩ := EStateM.Result.exists_of_okAnd h
    exact ⟨state', hrun⟩
  · intro ⟨state', hrun⟩
    rw [hrun]
    rfl

instance ThroughDirs.decidable (blobs : Blobs) :
    ∀ (path : Path) (node : Node), Decidable (ThroughDirs blobs node path)
  | [], _ => isTrue trivial
  | part :: rest, node =>
      have : ∀ child, Decidable (ThroughDirs blobs child rest) := ThroughDirs.decidable blobs rest
      decidable_of_iff (∀ link ∈ node.getLink part.toName, ∀ child ∈ loadNode blobs link,
          link.isDir = true ∧ ThroughDirs blobs child rest)
        ⟨fun h link child hlink hload => h link hlink child hload,
          fun h link hlink child hload => h link child hlink hload⟩

instance (blobs : Blobs) (entry : Node) (p : AbsolutePath) :
    Decidable (ParentThroughDirs blobs entry p.path) :=
  decidable_of_iff (∀ parent ∈ p.parts.parent, ThroughDirs blobs entry parent)
    ⟨fun h cleaned parent hclean hparent => h parent (by cases hclean; exact hparent),
      fun h parent hparent => h p.parts parent rfl hparent⟩

instance (state : MountState) : (call : MountCall) → Decidable (call.KeepsKeys state)
  | .add p _ => inferInstanceAs (Decidable (.parentDir ∉ p.parts ∧
      ∀ path ∈ state.inner.opsLog.keys, p.parts <+: path → path = p.parts))
  | .mkdir p => inferInstanceAs (Decidable (.parentDir ∉ p.parts))
  | .rm p => inferInstanceAs (Decidable (
      ParentThroughDirs state.world.blobs state.inner.entry p.path ∧
        ∀ path ∈ state.inner.opsLog.keys, p.parts <+: path → path = p.parts))
  | .mv source target => inferInstanceAs (Decidable (
      ParentThroughDirs state.world.blobs state.inner.entry source.path ∧
        .parentDir ∉ target.parts ∧ ∀ path ∈ state.inner.opsLog.keys, ¬ source.parts <+: path))
  | .get _ | .cat _ | .ls _ | .lsDeep _ => isTrue trivial

instance (state : MountState) (call : MountCall) : Decidable (call.Follows state) :=
  decidable_of_iff ((call.perform.run state).okAnd (fun _ => true) = true ∧
      state.inner.opsLog.localClock + 1 < 2 ^ 64 ∧ call.KeepsKeys state)
    ⟨fun ⟨h, hclock, hkeeps⟩ => ⟨succeeds_iff.mp h, hclock, hkeeps⟩,
      fun ⟨h, hclock, hkeeps⟩ => ⟨succeeds_iff.mpr h, hclock, hkeeps⟩⟩

/-- `resolve_all` has the paths that exist, and every file that is listed. -/
def LogDescribesTree (state : MountState) : Prop :=
  (∀ path ∈ state.inner.opsLog.keys, ∃ link, state.get (.rootDir :: path) = .ok link) ∧
  ∀ fuel items, Mount.lsDeep fuel state.world.blobs state.inner.entry [.rootDir] = .ok items →
    ∀ item ∈ items, item.2.isDir = false → item.1 ∈ state.inner.opsLog.keys

omit [LawfulPrimitives] in
theorem MountCall.KeepsKeys.takesFromDirs {call : MountCall} (h : call.KeepsKeys state) :
    call.TakesFromDirs state := by
  cases call with
  | get p | cat p | ls p | lsDeep p | add p data | mkdir p => trivial
  | rm p => exact h.1
  | mv source target => exact h.1

omit [LawfulPrimitives] in
/-- Keys below a path of names. -/
theorem names_below {names : List Name} {post : Path → Prop}
    (h : ∀ path ∈ state.inner.opsLog.keys, relPath names <+: path → post path) :
    ∀ path ∈ state.inner.opsLog.names, names <+: path → post (relPath path) :=
  fun path hpath hpre => h (relPath path) hpath (hpre.map _)

theorem Logged.step (h : Logged state) {call : MountCall} (hcall : call.Follows state) :
    Logged (call.after state) := by
  obtain ⟨⟨state', hrun⟩, hclock, hkeeps⟩ := hcall
  have htidy := tidy_after h.tidy hkeeps.takesFromDirs
  have hafter : call.after state = state' := congrArg EStateM.Result.state hrun
  rw [hafter] at htidy ⊢
  cases call with
  | get p | cat p | ls p | lsDeep p =>
      cases hrun
      exact h
  | add p data =>
      obtain ⟨hup, hbelow⟩ := hkeeps
      obtain ⟨names, hparts⟩ := p.wellFormed.exists_names hup
      have hpath : p.path = absPath names := congrArg (List.cons Component.rootDir) hparts
      rw [hparts] at hbelow
      rw [MountCall.perform, hpath] at hrun
      refine h.add hclock ?_ htidy hrun
      exact fun path hpath hpre => relPath_injective (names_below hbelow path hpath hpre)
  | mkdir p =>
      obtain ⟨names, hparts⟩ := p.wellFormed.exists_names hkeeps
      have hpath : p.path = absPath names := congrArg (List.cons Component.rootDir) hparts
      rw [MountCall.perform, hpath] at hrun
      exact h.mkdir hclock htidy hrun
  | rm p =>
      obtain ⟨hdirs, hbelow⟩ := hkeeps
      obtain ⟨parent, name, parentNode, hparts, hread⟩ := parts_of_rm hrun
      obtain ⟨parents, rfl, hthrough⟩ := exists_names_of_parent h.tidy hparts hdirs hread
      have hnames : p.parts = relPath (parents ++ [name]) := by rw [hparts, relPath_append]; rfl
      have hpath : p.path = absPath (parents ++ [name]) :=
        congrArg (List.cons Component.rootDir) hnames
      rw [hnames] at hbelow
      rw [MountCall.perform, hpath] at hrun
      refine h.rm hclock hthrough ?_ htidy hrun
      exact fun path hpath hpre => relPath_injective (names_below hbelow path hpath hpre)
  | mv source target =>
      obtain ⟨hdirs, hup, hbelow⟩ := hkeeps
      obtain ⟨parent, name, parentNode, hparts, hread⟩ := parts_of_mv hrun
      obtain ⟨parents, rfl, hthrough⟩ := exists_names_of_parent h.tidy hparts hdirs hread
      obtain ⟨names, htarget⟩ := target.wellFormed.exists_names hup
      have hnames : source.parts = relPath (parents ++ [name]) := by
        rw [hparts, relPath_append]
        rfl
      have hpath : source.path = absPath (parents ++ [name]) :=
        congrArg (List.cons Component.rootDir) hnames
      have hpath' : target.path = absPath names := congrArg (List.cons Component.rootDir) htarget
      have hvalid : ∀ other ∈ parents, ValidName other := by
        intro other hother
        apply source.namedBy
        rw [hpath]
        exact List.mem_cons_of_mem _ (List.mem_map.mpr ⟨other, by simp [hother], rfl⟩)
      rw [hnames] at hbelow
      rw [MountCall.perform, hpath, hpath'] at hrun
      refine h.mv hclock hthrough hvalid ?_ htidy hrun
      exact fun path hmem hpre => hbelow (relPath path) hmem (hpre.map _)

omit [LawfulPrimitives] in
theorem logged_fresh (hfresh : state.inner.entry = Node.default)
    (hlog : state.inner.opsLog = PathOpLog.new) : Logged state := by
  have hkeys : state.inner.opsLog.keys = [] := by
    rw [hlog]
    rfl
  refine ⟨?_, ?_, ?_, ?_, ?_⟩
  · unfold MountOf
    rw [hfresh]
    exact treeOf_default _ _ _
  · intro op hop
    rw [hlog] at hop
    exact absurd hop PathOpLog.not_mem_new
  · intro path hpath
    rw [hkeys] at hpath
    exact absurd hpath List.not_mem_nil
  · intro names hnames
    have hmem : relPath names ∈ state.inner.opsLog.keys := hnames
    rw [hkeys] at hmem
    exact absurd hmem List.not_mem_nil
  · intro names link hlink
    unfold MountState.view at hlink
    rw [hfresh, linkAt_default] at hlink
    cases hlink

omit [LawfulPrimitives] in
/-- The files that are listed are behind directories. -/
theorem view_of_lsDeep (h : MountOf Tidy state) {fuel : ℕ} {items : FinMap Path NodeLink}
    (hlist : Mount.lsDeep fuel state.world.blobs state.inner.entry [.rootDir] = .ok items) :
    ∀ item ∈ items, item.2.isDir = false →
      ∃ names, item.1 = relPath names ∧ state.view names = some item.2 := by
  let inv : List Name → Node → Prop := fun names node =>
    TreeOf Tidy state.world.blobs state.inner.pins node ∧
      ∀ rest, rest ≠ [] → state.view (names ++ rest) = linkAt state.world.blobs node rest
  have hroot : inv [] state.inner.entry := ⟨h, fun _ _ => rfl⟩
  refine Mount.forall_lsDeep ?_ hroot hlist
  intro names node hnode ⟨htree, hview⟩ name link hlink
  rcases (htree.linkOf hlink).self with hvalid | ⟨rfl, hdir⟩
  · have hpush : (relPath names).push name = relPath (names ++ [name]) := by
      rw [hvalid.push, relPath_append]
      rfl
    refine ⟨fun _ => ⟨names ++ [name], hpush, (hview [name] (by simp)).trans hlink⟩, ?_⟩
    intro hdir
    refine ⟨names ++ [name], hpush, ?_⟩
    intro child hchild
    have hload := loadNode_of_walkNode_concat hnode hlink hchild
    refine ⟨htree.of_childDir hlink hdir hload, ?_⟩
    intro rest hrest
    rw [List.append_assoc, hview _ (by simp), List.singleton_append, linkAt_cons hrest, hlink,
      Option.bind_some, dirNode, if_pos hdir, hload, Option.bind_some]
  · refine ⟨fun hfile => absurd (hdir.symm.trans hfile) (by simp), ?_⟩
    intro _
    refine ⟨names, Path.push_nil _, ?_⟩
    intro child hchild
    rw [hnode] at hchild
    cases hchild
    exact ⟨htree, hview⟩

omit [LawfulPrimitives] in
theorem Logged.describes (h : Logged state) : LogDescribesTree state := by
  constructor
  · intro path hpath
    obtain ⟨names, rfl⟩ := h.named path hpath
    obtain ⟨-, link, hlink⟩ := h.keys.found names hpath
    exact ⟨link, get_eq_ok_iff.mpr (findLink_of_linkAt hlink)⟩
  · intro fuel items hlist item hitem hfile
    obtain ⟨names, hpath, hview⟩ := view_of_lsDeep h.tidy hlist item hitem hfile
    rw [hpath]
    exact h.keys.recorded names item.2 hview hfile

/-- The log has the paths of the tree along every run of calls that keep the keys. -/
theorem log_describes_tree (hfresh : state.inner.entry = Node.default)
    (hlog : state.inner.opsLog = PathOpLog.new) {calls : List MountCall}
    (h : AlongRun MountCall.after MountCall.Follows state calls) :
    LogDescribesTree (calls.foldl MountCall.after state) := by
  have hlogged : Logged (calls.foldl MountCall.after state) := by
    apply AlongRun.invariant _ (logged_fresh hfresh hlog) h
    intro state' call hstate hcall
    exact hstate.step hcall
  exact hlogged.describes

end

end

namespace Reference

/-- The directory `/e` is made on the way to a file, and has no key of its own. -/
def movedEmptied : List MountCall :=
  [.mkdir (AbsolutePath.parse "/d".toList), .add (AbsolutePath.parse "/e/f".toList) [1],
    .rm (AbsolutePath.parse "/e/f".toList),
    .mv (AbsolutePath.parse "/e".toList) (AbsolutePath.parse "/g".toList),
    .rm (AbsolutePath.parse "/d".toList)]

theorem movedEmptied_described : LogDescribesTree (movedEmptied.foldl MountCall.after emptyMount) :=
  log_describes_tree rfl rfl (by decide +kernel)

/-- A directory with a file is moved. -/
def movedWithFile : List MountCall :=
  [.add (AbsolutePath.parse "/a/f".toList) [1],
    .mv (AbsolutePath.parse "/a".toList) (AbsolutePath.parse "/b".toList)]

/-- A directory with a file is removed. -/
def removedWithFile : List MountCall :=
  [.add (AbsolutePath.parse "/a/f".toList) [1], .rm (AbsolutePath.parse "/a".toList)]

/-- Some key is a path on which `get` fails. -/
def staleKey (state : MountState) : Bool :=
  state.inner.opsLog.keys.any (fun path => (state.get (.rootDir :: path)).toOption.isNone)

theorem not_described_of_staleKey {state : MountState} (h : staleKey state = true) :
    ¬ LogDescribesTree state := by
  intro hdescribes
  obtain ⟨path, hpath, hnone⟩ := List.any_eq_true.mp h
  obtain ⟨link, hget⟩ := hdescribes.1 path hpath
  rw [hget] at hnone
  cases hnone

/-- The file keeps its old key in the log. -/
theorem moved_and_removed_not_described :
    (∀ calls ∈ [movedWithFile, removedWithFile], AlongRun MountCall.after
      (fun state call => (call.perform.run state).okAnd (fun _ => true) = true)
      emptyMount calls) ∧
    ¬ LogDescribesTree (movedWithFile.foldl MountCall.after emptyMount) ∧
    ¬ LogDescribesTree (removedWithFile.foldl MountCall.after emptyMount) := by
  have hfacts : (∀ calls ∈ [movedWithFile, removedWithFile], AlongRun MountCall.after
      (fun state call => (call.perform.run state).okAnd (fun _ => true) = true)
      emptyMount calls) ∧
      staleKey (movedWithFile.foldl MountCall.after emptyMount) = true ∧
      staleKey (removedWithFile.foldl MountCall.after emptyMount) = true := by
    decide +kernel
  exact ⟨hfacts.1, not_described_of_staleKey hfacts.2.1, not_described_of_staleKey hfacts.2.2⟩

end Reference

end JaxFs

import JaxFs.KeyParsing
import JaxFs.RefreshWork
import JaxFs.RelinkedFile
import JaxFs.Requests

/-!
# The `rename` and `mv` endpoints

`http_server/api/v0/bucket/rename.rs` and `mv.rs`.  `mv` relinks the node; `rename` reads the
file, removes it and adds it again, after checks of its own.  On a file they part where the
destination is below the source, which `mv` alone refuses, and where the file cannot be read.
-/

namespace JaxFs

open BucketLogProvider

/-! ## The handlers -/

structure RenameRequest where
  bucketId : Uuid
  oldPath : Name
  newPath : Name

structure RenameResponse where
  oldPath : Name
  newPath : Name
  link : Link

/-- A panic is kept with the errors of the mount. -/
inductive RenameError where
  | invalidPath (message : String)
  | sourceNotFound (message : String)
  | destinationExists (message : String)
  | mount (fault : Fault)

structure MvRequest where
  bucketId : Uuid
  sourcePath : Name
  destPath : Name

structure MvResponse where
  sourcePath : Name
  destPath : Name
  link : Link

inductive MvError where
  | invalidPath (message : String)
  | mount (fault : Fault)

section

variable [P : Primitives]

/-- The mount of the head that a handler works on, gone when it returns. -/
def withHead {ε α : Type} (env : PeerEnv) (bucketId : Uuid) (fail : Fault → ε)
    (x : EStateM ε (PeerMount LogTable) α) : EStateM ε (PeerState LogTable) α := fun peer =>
  match peer.mountHead env bucketId with
  | .error fault => .error (fail fault) peer
  | .ok inner =>
      match x.run ⟨peer, inner⟩ with
      | .ok a state => .ok a state.peer
      | .error e state => .error e state.peer

/-- `rename` on its mount. -/
def renameFile (env : PeerEnv) (req : RenameRequest) (oldPath newPath : Path) :
    EStateM RenameError (PeerMount LogTable) RenameResponse := do
  let state ← getThe (PeerMount LogTable)
  match state.mount.get oldPath with
  | .error (.error _) =>
      throw (.sourceNotFound ("Source path not found: " ++ String.ofList req.oldPath))
  | .error fault => throw (.mount fault)
  | .ok _ =>
      match state.mount.get newPath with
      | .ok _ =>
          throw (.destinationExists
            ("Destination path already exists: " ++ String.ofList req.newPath))
      | .error (.error _) => do
          let fileData ← EStateM.ofExcept ((state.mount.cat oldPath).mapError .mount)
          EStateM.adaptExcept .mount (onMount (rm oldPath))
          EStateM.adaptExcept .mount (onMount (add newPath fileData))
          let newBucketLink ← EStateM.adaptExcept .mount (saveMount env false)
          pure ⟨req.oldPath, req.newPath, newBucketLink⟩
      | .error fault => throw (.mount fault)

/-- `rename::handler`. -/
def renameHandler (env : PeerEnv) (req : RenameRequest) :
    EStateM RenameError (PeerState LogTable) RenameResponse :=
  let oldPath := Path.parse req.oldPath
  let newPath := Path.parse req.newPath
  if ¬ oldPath.isAbsolute then
    throw (.invalidPath ("Old path must be absolute: " ++ String.ofList req.oldPath))
  else if ¬ newPath.isAbsolute then
    throw (.invalidPath ("New path must be absolute: " ++ String.ofList req.newPath))
  else withHead env req.bucketId .mount (renameFile env req oldPath newPath)

/-- `mv` on its mount. -/
def mvFile (env : PeerEnv) (req : MvRequest) (sourcePath destPath : Path) :
    EStateM MvError (PeerMount LogTable) MvResponse := do
  EStateM.adaptExcept .mount (onMount (mv sourcePath destPath))
  let newBucketLink ← EStateM.adaptExcept .mount (saveMount env false)
  pure ⟨req.sourcePath, req.destPath, newBucketLink⟩

/-- `mv::handler`. -/
def mvHandler (env : PeerEnv) (req : MvRequest) :
    EStateM MvError (PeerState LogTable) MvResponse :=
  let sourcePath := Path.parse req.sourcePath
  let destPath := Path.parse req.destPath
  if ¬ sourcePath.isAbsolute then
    throw (.invalidPath ("Source path must be absolute: " ++ String.ofList req.sourcePath))
  else if ¬ destPath.isAbsolute then
    throw (.invalidPath ("Destination path must be absolute: " ++ String.ofList req.destPath))
  else withHead env req.bucketId .mount (mvFile env req sourcePath destPath)

/-! ## The tree of the head -/

/-- The tree of the version at the head of the bucket. -/
structure HeadTree (peer : PeerState LogTable) (id : Uuid) (entry : Node) : Prop where
  stored : ∃ link height manifest secret, head peer.logs id none = .ok (link, height) ∧
    getManifestFromBlobs peer.world.blobs link = .ok manifest ∧
    loadNode peer.world.blobs (.dir manifest.entry secret) = some entry

variable [LawfulPrimitives]

/-- The tree of the mount is stored under the secret of the version. -/
theorem entry_of_saveVersion {inner : MountInner} {publish : Bool} {world world' : World}
    {manifest : Manifest} {link : Link}
    (hrun : (saveVersion inner publish).run world = .ok (manifest, link) world') :
    ∃ secret, loadNode world'.blobs (.dir manifest.entry secret) = some inner.entry := by
  obtain ⟨secret, world1, _, world2, _, _, _, _, _, _, -, hentry, hops, hpins, hshares, hput,
    hmanifest⟩ := saveVersion_stages hrun
  obtain ⟨found, worldFound, hfound, -, hload⟩ := putNodeInBlobs_spec inner.entry secret world1
  rw [hentry] at hfound
  cases hfound
  have hlater : Grows world2 world' :=
    ((grows_saveOpsLog _ _).of_ok hops).trans (((grows_putPinsInBlobs _).of_ok hpins).trans
      (((grows_rewrapShares _ _ _).of_ok hshares).trans
        ((grows_putManifestInBlobs _).of_ok hput)))
  refine ⟨secret, ?_⟩
  rw [hmanifest.entry]
  exact hlater.loadNode hload

/-! ## The head after a save -/

/-- There is a row id left. -/
def LogTable.HasRoom (table : LogTable) : Prop := table.db.bucketLog.length < maxRowId

omit [LawfulPrimitives] in
/-- On top of the chain only a full table refuses a version. -/
theorem SingleChain.append_cases {peer : PeerState LogTable} {id : Uuid} {links : List Link}
    (h : SingleChain peer id links) {below : ℕ} {link previous : Link} {manifest : Manifest}
    (htop : below + 1 = links.length) (hprevious : links[below]? = some previous)
    (hread : getManifestFromBlobs peer.world.blobs link = .ok manifest)
    (hid : manifest.id = id) (hheight : manifest.height = below + 1)
    (hlink : manifest.previous = some previous) (name : Name) (published : Bool) :
    (¬ peer.logs.HasRoom ∧ ∃ error,
      append peer.logs id name link (some previous) (below + 1) published =
        (.error error, peer.logs)) ∨
    (peer.logs.HasRoom ∧ ∃ logs,
      append peer.logs id name link (some previous) (below + 1) published = (.ok (), logs) ∧
      SingleChain { peer with logs := logs } id (links ++ [link])) := by
  have hchecked : peer.logs.db.appendError id link (some previous) (below + 1) = none := by
    obtain ⟨row, hrow, hrowId, hrowHeight, hrowLink⟩ := h.exists_row hprevious
    have hany : peer.logs.db.bucketLog.any (fun row => decide (row.bucketId = id ∧
        row.currentLink = previous ∧ row.height = toI64 (below + 1 - 1))) = true := by
      rw [List.any_eq_true]
      refine ⟨row, hrow, decide_eq_true ⟨hrowId, hrowLink, ?_⟩⟩
      rw [hrowHeight, Nat.add_sub_cancel, h.toI64_of_le (by omega)]
    unfold Database.appendError
    dsimp only
    rw [if_neg (Nat.succ_ne_zero _), if_pos hany]
  have hunique : peer.logs.db.violatesUnique
      ⟨id, name, link, some previous, toI64 (below + 1), published⟩ = false := by
    unfold Database.violatesUnique
    rw [List.any_eq_false]
    intro other hother hclash
    obtain ⟨hotherId, hclash⟩ := of_decide_eq_true hclash
    obtain ⟨n, hn, hotherHeight, hotherLink⟩ := h.of_row hother hotherId
    rcases hclash with hclash | hclash
    · dsimp only at hclash
      rw [hotherHeight, h.toI64_of_le htop.le] at hclash
      omega
    · -- a logged version has a height below
      obtain ⟨found, hfound, -, hfoundHeight, -⟩ := h.manifests n _ hotherLink
      dsimp only at hclash
      rw [hclash, hread] at hfound
      cases hfound
      omega
  rw [LogTable.append_eq, hchecked]
  dsimp only
  by_cases hroom : peer.logs.HasRoom
  · right
    obtain ⟨logs, hinsert⟩ : ∃ logs, peer.logs.insert
        ⟨id, name, link, some previous, toI64 (below + 1), published⟩ = (.ok (), logs) := by
      have hlt : peer.logs.db.bucketLog.length < maxRowId := hroom
      unfold LogTable.insert
      simp only [dif_pos hlt, hunique, Bool.false_eq_true, if_false]
      exact ⟨_, rfl⟩
    exact ⟨hroom, logs, hinsert,
      h.insert hinsert hprevious rfl (by simp only) rfl hread hid hheight hlink⟩
  · left
    refine ⟨hroom, .provider "database or disk is full", ?_⟩
    unfold LogTable.insert
    exact dif_neg hroom

/-- The mount is of the last version of the chain. -/
structure AtHead (state : PeerMount LogTable) (id : Uuid) (links : List Link) : Prop where
  chain : SingleChain state.peer id links
  bucket : state.inner.manifest.id = id
  top : state.inner.height + 1 = links.length
  link : links[state.inner.height]? = some state.inner.link

omit [LawfulPrimitives] in
theorem AtHead.of_mountHead {peer : PeerState LogTable} {env : PeerEnv} {id : Uuid}
    {links : List Link} {inner : MountInner} (hchain : SingleChain peer id links)
    (hload : peer.mountHead env id = .ok inner) : AtHead ⟨peer, inner⟩ id links := by
  unfold PeerState.mountHead at hload
  cases hlast : links.getLast? with
  | none =>
      obtain rfl := List.getLast?_eq_none_iff.mp hlast
      have hrows : peer.logs.rowsOf id = [] := List.map_eq_nil_iff.mp hchain.rows.eq_nil
      have hheight : height peer.logs id = .error (.headNotFound 0) :=
        Database.height_of_none (congrArg (fun rows => (rows.map BucketLogRow.height).max?) hrows)
      rw [head_of_height_error hheight] at hload
      contradiction
  | some link =>
      rw [hchain.head_eq hlast] at hload
      have hat : links[links.length - 1]? = some link := by
        rw [← List.getLast?_eq_getElem?]
        exact hlast
      have hlength := (List.getElem?_eq_some_iff.mp hat).1
      obtain ⟨found, hread, hid, hheight, -⟩ := hchain.manifests _ link hat
      obtain ⟨manifest, secret, pins, entry, opsLog, hmanifest, -, -, -, -, rfl⟩ :=
        load_eq_ok_iff.mp hload
      rw [hmanifest] at hread
      cases hread
      refine ⟨hchain, hid, ?_, ?_⟩
      · dsimp only
        omega
      · dsimp only
        rw [hheight]
        exact hat

/-- A version can be stored and logged. -/
structure Savable (state : PeerMount LogTable) : Prop where
  wrappable : Wrappable state.inner.manifest
  room : state.peer.logs.HasRoom

/-- No key in the shares makes the pings panic. -/
def Pingable (state : PeerMount LogTable) : Prop :=
  ∀ key ∈ state.inner.manifest.shareKeys, ¬ EncodesNoPoint key

/-- The head is the version after the chain, with the tree of the mount. -/
structure NewHead (state state' : PeerMount LogTable) (id : Uuid) (links : List Link) :
    Prop where
  grows : Grows state.peer.world state'.peer.world
  head : ∃ link, head state'.peer.logs id none = .ok (link, links.length)
  tree : HeadTree state'.peer id state.inner.entry

/-- The version is stored and logged on top of the chain. -/
theorem newHead_of_save {state state' : PeerMount LogTable} {id : Uuid} {links : List Link}
    {link previousLink : Link} {height : ℕ} {publish : Bool}
    (hsave : (save publish).run state.mount = .ok (link, previousLink, height) state'.mount)
    (hchain : SingleChain state'.peer id (links ++ [link])) : NewHead state state' id links := by
  obtain ⟨manifest, world', hversion, -, hmount⟩ := run_save_eq_ok hsave
  obtain ⟨hgrows, hread, -⟩ := manifest_of_save hsave
  obtain ⟨secret, hload⟩ := entry_of_saveVersion hversion
  have hhead := hchain.head_eq List.getLast?_concat
  rw [List.length_append, List.length_singleton, Nat.add_sub_cancel] at hhead
  have hmanifest : state'.mount.inner.manifest = manifest := by rw [hmount]
  have hworld : state'.mount.world = world' := by rw [hmount]
  rw [← hmanifest, ← hworld] at hload
  exact ⟨hgrows, ⟨link, hhead⟩, link, links.length, _, secret, hhead, hread, hload⟩

omit [LawfulPrimitives] in
theorem NewHead.of_eq {state state' state'' : PeerMount LogTable} {id : Uuid}
    {links : List Link} (h : NewHead state state' id links)
    (hworld : state''.peer.world = state'.peer.world)
    (hlogs : state''.peer.logs = state'.peer.logs) : NewHead state state'' id links := by
  obtain ⟨link, height, manifest, secret, hhead, hread, hload⟩ := h.tree
  obtain ⟨top, htop⟩ := h.head
  refine ⟨hworld ▸ h.grows, ⟨top, hlogs ▸ htop⟩, link, height, manifest, secret, hlogs ▸ hhead, ?_⟩
  rw [hworld]
  exact ⟨hread, hload⟩

omit [LawfulPrimitives] in
theorem pingable_of_save {state state' : PeerMount LogTable} {publish : Bool}
    {result : Link × Link × ℕ}
    (hsave : (save publish).run state.mount = .ok result state'.mount) :
    Pingable state' ↔ Pingable state := by
  obtain ⟨manifest, world', hversion, -, hmount⟩ := run_save_eq_ok hsave
  have hmanifest : state'.inner.manifest = manifest :=
    congrArg (fun mount => mount.inner.manifest) hmount
  unfold Pingable
  rw [hmanifest]
  exact forall_congr' fun key => imp_congr (shareKeys_of_saveVersion hversion key) Iff.rfl

theorem saveMount_outcome {state : PeerMount LogTable} {id : Uuid} {links : List Link}
    (hat : AtHead state id links) (env : PeerEnv) (publish : Bool) :
    (¬ Savable state ∧ ∃ fault state', (saveMount env publish).run state = .error fault state' ∧
      state'.peer.logs = state.peer.logs) ∨
    (Savable state ∧ ∃ state', NewHead state state' id links ∧
      ((Pingable state ∧ ∃ link, (saveMount env publish).run state = .ok link state') ∨
        (¬ Pingable state ∧ (saveMount env publish).run state = .error .panic state'))) := by
  rcases saveVersion_cases state.inner publish state.peer.world with
    ⟨hwrappable, -⟩ | ⟨hnot, world', hfails⟩
  · obtain ⟨⟨link, previousLink, height⟩, mount, hsave⟩ :=
      exists_save (show Wrappable state.mount.inner.manifest from hwrappable) publish
    obtain ⟨hgrows, hread, hid, hprevious, hheight⟩ := manifest_of_save hsave
    obtain ⟨-, -, -, hresult, -⟩ := run_save_eq_ok hsave
    cases hresult
    have hchain : SingleChain (state.setMount mount).peer id links := hat.chain.of_grows hgrows
    have hrest := @run_saveMount_of_save _ _ _ env publish state _ _ _ _ hsave
    have happend := hchain.append_cases hat.top hat.link hread (hid.trans hat.bucket) hheight
      hprevious state.inner.manifest.name mount.inner.manifest.isPublished
    rw [← hat.bucket] at happend
    obtain ⟨logs, ⟨hverdict, hrun⟩ | ⟨error, hverdict, hrun⟩⟩ := appendVersion_cases
      state.inner.manifest.id state.inner.manifest.name link state.inner.link
      (state.inner.height + 1) mount.inner.manifest.isPublished (state.setMount mount)
    · right
      rcases happend with ⟨-, error, hfull⟩ | ⟨hroom, logs', hlogged, hnext⟩
      · rw [hfull] at hverdict
        cases hverdict
      rw [hlogged] at hverdict
      cases hverdict
      rw [hat.bucket] at hnext
      have hsaved : Savable state := ⟨hwrappable, hroom⟩
      let appended : PeerMount LogTable := { state.setMount mount with
        peer := { (state.setMount mount).peer with logs := logs } }
      have hpingable : Pingable appended ↔ Pingable state := pingable_of_save hsave
      have hnew : NewHead state appended id links := newHead_of_save hsave hnext
      have hmount := sameMount_pingShares env state.inner.manifest.id
        appended.inner.manifest.shareKeys appended
      have hlogs := logs_pingShares env state.inner.manifest.id
        appended.inner.manifest.shareKeys appended
      have hrest := hrest.trans (EStateM.run_bind_of_ok hrun)
      refine ⟨hsaved, ((pingShares env state.inner.manifest.id
        appended.inner.manifest.shareKeys).run appended).state,
        hnew.of_eq (congrArg MountState.world hmount) hlogs, ?_⟩
      rcases pingShares_cases env state.inner.manifest.id appended.inner.manifest.shareKeys
        appended with ⟨hpoints, state', hpings⟩ | ⟨hpoints, state', hpings⟩
      · left
        rw [hpings]
        exact ⟨hpingable.mp hpoints, link, hrest.trans (EStateM.run_bind_of_ok hpings)⟩
      · right
        rw [hpings]
        exact ⟨fun h => hpoints (hpingable.mpr h),
          hrest.trans (EStateM.run_bind_of_error hpings)⟩
    · left
      rcases happend with ⟨hroom, error', hfull⟩ | ⟨-, logs', hlogged, -⟩
      · rw [hfull] at hverdict
        cases hverdict
        exact ⟨fun h => hroom h.room, _, _, hrest.trans (EStateM.run_bind_of_error hrun), rfl⟩
      · rw [hlogged] at hverdict
        cases hverdict
  · left
    have hsave : (save publish).run state.mount =
        .error (.error .share) { state.mount with world := world' } := by
      unfold save
      rw [run_getThe_bind, EStateM.run_bind_of_error (run_onBlobs_of_error hfails)]
    refine ⟨fun h => hnot h.wrappable, .error .share,
      state.setMount { state.mount with world := world' }, ?_, rfl⟩
    unfold saveMount
    rw [run_getPeer_bind, EStateM.run_bind_of_error (run_onMount_of_error hsave)]

/-! ## What the handlers run -/

omit P [LawfulPrimitives] in
theorem isAbsolute_absPath (names : List Name) : (absPath names).isAbsolute = true := rfl

omit P [LawfulPrimitives] in
theorem run_adaptExcept_of_ok {ε ε' σ α : Type} {wrap : ε → ε'} {x : EStateM ε σ α}
    {state state' : σ} {a : α} (h : x.run state = .ok a state') :
    (EStateM.adaptExcept wrap x).run state = .ok a state' := by
  unfold EStateM.adaptExcept EStateM.run at *
  dsimp only
  rw [h]

omit P [LawfulPrimitives] in
theorem run_adaptExcept_of_error {ε ε' σ α : Type} {wrap : ε → ε'} {x : EStateM ε σ α}
    {state state' : σ} {e : ε} (h : x.run state = .error e state') :
    (EStateM.adaptExcept wrap x).run state = .error (wrap e) state' := by
  unfold EStateM.adaptExcept EStateM.run at *
  dsimp only
  rw [h]

/-- An operation on the mount of the head, and a save. -/
def editHead (env : PeerEnv) (edit : MountM Unit) : PeerM LogTable Link := do
  onMount edit
  saveMount env false

/-- The answer to a request, whose mount is gone. -/
def answer {ε α : Type} (fail : Fault → ε) (reply : Link → α) :
    EStateM.Result Fault (PeerMount LogTable) Link → EStateM.Result ε (PeerState LogTable) α
  | .ok link state => .ok (reply link) state.peer
  | .error fault state => .error (fail fault) state.peer

section

variable {env : PeerEnv} {peer : PeerState LogTable} {id : Uuid} {inner : MountInner}
  {oldPath newPath : Name} {source target : List Name}

omit [LawfulPrimitives] in
theorem run_withHead {ε α : Type} {fail : Fault → ε}
    {x : EStateM ε (PeerMount LogTable) α} (hload : peer.mountHead env id = .ok inner) :
    (withHead env id fail x).run peer = match x.run ⟨peer, inner⟩ with
      | .ok a state => .ok a state.peer
      | .error e state => .error e state.peer := by
  unfold withHead EStateM.run
  dsimp only
  rw [hload]

omit [LawfulPrimitives] in
/-- The save that both end with. -/
theorem run_saveAnswer {ε α : Type} (fail : Fault → ε) (reply : Link → α)
    (state : PeerMount LogTable) :
    (match (do
        let newBucketLink ← EStateM.adaptExcept fail (saveMount env false)
        pure (reply newBucketLink) : EStateM ε (PeerMount LogTable) α).run state with
      | .ok a state => (.ok a state.peer : EStateM.Result ε (PeerState LogTable) α)
      | .error e state => .error e state.peer) =
    answer fail reply ((saveMount env false).run state) := by
  cases hsave : (saveMount env false).run state with
  | error fault state' =>
      rw [EStateM.run_bind_of_error (run_adaptExcept_of_error hsave)]
      rfl
  | ok link state' =>
      rw [EStateM.run_bind_of_ok (run_adaptExcept_of_ok hsave)]
      rfl

omit [LawfulPrimitives] in
theorem run_mvHandler (hload : peer.mountHead env id = .ok inner)
    (hold : Path.parse oldPath = absPath source) (hnew : Path.parse newPath = absPath target) :
    (mvHandler env ⟨id, oldPath, newPath⟩).run peer =
      answer .mount (MvResponse.mk oldPath newPath)
        ((editHead env (mv (absPath source) (absPath target))).run ⟨peer, inner⟩) := by
  unfold mvHandler
  rw [hold, hnew, if_neg (not_not.mpr (isAbsolute_absPath _)),
    if_neg (not_not.mpr (isAbsolute_absPath _)), run_withHead hload]
  unfold mvFile editHead
  cases hmv : (onMount (mv (absPath source) (absPath target))).run
      (⟨peer, inner⟩ : PeerMount LogTable) with
  | error fault state =>
      rw [EStateM.run_bind_of_error hmv,
        EStateM.run_bind_of_error (run_adaptExcept_of_error hmv)]
      rfl
  | ok _ state =>
      rw [EStateM.run_bind_of_ok hmv, EStateM.run_bind_of_ok (run_adaptExcept_of_ok hmv)]
      exact run_saveAnswer MvError.mount (MvResponse.mk oldPath newPath) state

omit [LawfulPrimitives] in
/-- Nothing is touched before the new place is known to be free and the file is read. -/
theorem renameHandler_cases {link : NodeLink} (hload : peer.mountHead env id = .ok inner)
    (hold : Path.parse oldPath = absPath source) (hnew : Path.parse newPath = absPath target)
    (hfile : MountState.get ⟨peer.world, inner⟩ (absPath source) = .ok link) :
    (((∃ link, MountState.get ⟨peer.world, inner⟩ (absPath target) = .ok link) ∨
        ¬ ∃ data, MountState.cat ⟨peer.world, inner⟩ (absPath source) = .ok data) ∧
      ∃ error, (renameHandler env ⟨id, oldPath, newPath⟩).run peer = .error error peer) ∨
    ((¬ ∃ link, MountState.get ⟨peer.world, inner⟩ (absPath target) = .ok link) ∧
      ∃ data, MountState.cat ⟨peer.world, inner⟩ (absPath source) = .ok data ∧
        (renameHandler env ⟨id, oldPath, newPath⟩).run peer =
          answer .mount (RenameResponse.mk oldPath newPath)
            ((editHead env (copyTo (absPath source) (absPath target) data)).run
              ⟨peer, inner⟩)) := by
  have hstart : (getThe (PeerMount LogTable) : EStateM RenameError (PeerMount LogTable) _).run
      ⟨peer, inner⟩ = .ok ⟨peer, inner⟩ ⟨peer, inner⟩ := rfl
  unfold renameHandler
  rw [hold, hnew, if_neg (not_not.mpr (isAbsolute_absPath _)),
    if_neg (not_not.mpr (isAbsolute_absPath _)), run_withHead hload]
  unfold renameFile
  rw [EStateM.run_bind_of_ok hstart]
  simp only [show (PeerMount.mount ⟨peer, inner⟩ : MountState) = ⟨peer.world, inner⟩ from rfl,
    hfile]
  cases htarget : MountState.get ⟨peer.world, inner⟩ (absPath target) with
  | ok found => exact Or.inl ⟨Or.inl ⟨found, rfl⟩, _, rfl⟩
  | error fault =>
      obtain ⟨error, rfl⟩ := get_absPath_error htarget
      dsimp only
      cases hdata : MountState.cat ⟨peer.world, inner⟩ (absPath source) with
      | error fault =>
          left
          refine ⟨Or.inr (by simp), .mount fault, ?_⟩
          rfl
      | ok data =>
          right
          refine ⟨by simp, data, rfl, ?_⟩
          have hread : (EStateM.ofExcept ((Except.ok data : Except Fault Bytes).mapError
              RenameError.mount) : EStateM RenameError (PeerMount LogTable) Bytes).run
                ⟨peer, inner⟩ = .ok data ⟨peer, inner⟩ := rfl
          rw [EStateM.run_bind_of_ok hread]
          unfold editHead
          cases hrm : (rm (absPath source)).run
              (PeerMount.mount (⟨peer, inner⟩ : PeerMount LogTable)) with
          | error fault mount =>
              have hcopy : (copyTo (absPath source) (absPath target) data).run
                  (PeerMount.mount (⟨peer, inner⟩ : PeerMount LogTable)) = .error fault mount :=
                EStateM.run_bind_of_error hrm
              rw [EStateM.run_bind_of_error (run_onMount_of_error hcopy),
                EStateM.run_bind_of_error (run_adaptExcept_of_error (run_onMount_of_error hrm))]
              rfl
          | ok _ removed =>
              rw [EStateM.run_bind_of_ok (run_adaptExcept_of_ok (run_onMount_of_ok hrm))]
              have hcopy : (copyTo (absPath source) (absPath target) data).run
                  (PeerMount.mount (⟨peer, inner⟩ : PeerMount LogTable)) =
                    (add (absPath target) data).run removed :=
                EStateM.run_bind_of_ok hrm
              cases hadd : (add (absPath target) data).run removed with
              | error fault mount =>
                  rw [hadd] at hcopy
                  have hrun := @run_onMount_of_error _ _ _ _
                    ((⟨peer, inner⟩ : PeerMount LogTable).setMount removed) _ _ hadd
                  rw [EStateM.run_bind_of_error (run_onMount_of_error hcopy),
                    EStateM.run_bind_of_error (run_adaptExcept_of_error hrun)]
                  rfl
              | ok _ mount =>
                  rw [hadd] at hcopy
                  have hrun := @run_onMount_of_ok _ _ _ _
                    ((⟨peer, inner⟩ : PeerMount LogTable).setMount removed) _ _ hadd
                  rw [EStateM.run_bind_of_ok (run_onMount_of_ok hcopy),
                    EStateM.run_bind_of_ok (run_adaptExcept_of_ok hrun)]
                  exact run_saveAnswer RenameError.mount (RenameResponse.mk oldPath newPath) _

end

/-! ## How they end -/

/-- The request fails, and the head of the bucket is what it was. -/
def FailsAtHead {ε α : Type} (id : Uuid) (peer : PeerState LogTable)
    (result : EStateM.Result ε (PeerState LogTable) α) : Prop :=
  ∃ error peer', result = .error error peer' ∧
    head peer'.logs id none = head peer.logs id none

section

variable {state : PeerMount LogTable} {id : Uuid} {links : List Link} {edit : MountM Unit}

omit [LawfulPrimitives] in
theorem AtHead.setMount (hat : AtHead state id links) {mount : MountState}
    (h : AtVersion state.mount mount) : AtHead (state.setMount mount) id links := by
  obtain ⟨opsLog, hedited⟩ := h
  have hlink : mount.inner.link = state.inner.link := hedited.link
  have hheight : mount.inner.height = state.inner.height := hedited.height
  have hmanifest : mount.inner.manifest = state.inner.manifest := hedited.manifest
  refine ⟨hat.chain.of_grows hedited.grows, ?_, ?_, ?_⟩
  · exact (congrArg Manifest.id hmanifest).trans hat.bucket
  · change mount.inner.height + 1 = _
    rw [hheight]
    exact hat.top
  · change links[mount.inner.height]? = some mount.inner.link
    rw [hheight, hlink]
    exact hat.link

omit [LawfulPrimitives] in
theorem savable_setMount_iff {mount : MountState} (h : AtVersion state.mount mount) :
    Savable (state.setMount mount) ↔ Savable state := by
  obtain ⟨opsLog, hedited⟩ := h
  have hmanifest : mount.inner.manifest = state.inner.manifest := hedited.manifest
  constructor
  · exact fun h => ⟨hmanifest ▸ h.wrappable, h.room⟩
  · exact fun h => ⟨hmanifest.symm ▸ h.wrappable, h.room⟩

omit [LawfulPrimitives] in
theorem pingable_setMount_iff {mount : MountState} (h : AtVersion state.mount mount) :
    Pingable (state.setMount mount) ↔ Pingable state := by
  obtain ⟨opsLog, hedited⟩ := h
  have hmanifest : mount.inner.manifest = state.inner.manifest := hedited.manifest
  unfold Pingable
  rw [show (state.setMount mount).inner.manifest = state.inner.manifest from hmanifest]

omit [LawfulPrimitives] in
theorem AtHead.head_eq (hat : AtHead state id links) :
    head state.peer.logs id none = .ok (state.inner.link, state.inner.height) := by
  have hlast : links.getLast? = some state.inner.link := by
    rw [List.getLast?_eq_getElem?, ← hat.top, Nat.add_sub_cancel]
    exact hat.link
  rw [hat.chain.head_eq hlast, ← hat.top, Nat.add_sub_cancel]

omit [LawfulPrimitives] in
/-- The height of a new head is another. -/
theorem head_ne_of_newHead {state' : PeerMount LogTable} {mount : MountState}
    (hat : AtHead state id links) (h : NewHead (state.setMount mount) state' id links) :
    head state'.peer.logs id none ≠ head state.peer.logs id none := by
  obtain ⟨link, hhead⟩ := h.head
  have htop := hat.top
  rw [hhead, hat.head_eq]
  intro heq
  have hheight := congrArg Prod.snd (Except.ok.inj heq)
  dsimp only at hheight
  omega

theorem editHead_outcome {ε α : Type} (hat : AtHead state id links) (env : PeerEnv)
    (hversion : EStateM.Preserves AtVersion edit) (fail : Fault → ε) (reply : Link → α) :
    (¬ (Savable state ∧ ∃ mount, edit.run state.mount = .ok () mount) ∧
      FailsAtHead id state.peer (answer fail reply ((editHead env edit).run state))) ∨
    (Savable state ∧ ∃ mount, edit.run state.mount = .ok () mount ∧
      ∃ state', NewHead (state.setMount mount) state' id links ∧
        ((Pingable state ∧ ∃ response,
            answer fail reply ((editHead env edit).run state) = .ok response state'.peer) ∨
          (¬ Pingable state ∧ ∃ error,
            answer fail reply ((editHead env edit).run state) = .error error state'.peer))) := by
  unfold editHead
  cases hedit : edit.run state.mount with
  | error fault mount =>
      left
      rw [EStateM.run_bind_of_error (run_onMount_of_error hedit)]
      exact ⟨by simp, fail fault, _, rfl, rfl⟩
  | ok _ mount =>
      have hat' := hat.setMount (hversion.of_ok hedit)
      rw [EStateM.run_bind_of_ok (run_onMount_of_ok hedit),
        ← savable_setMount_iff (hversion.of_ok hedit),
        ← pingable_setMount_iff (hversion.of_ok hedit)]
      rcases saveMount_outcome hat' env false with ⟨hsavable, fault, state', hrun, hlogs⟩ |
        ⟨hsavable, state', hnew, hended⟩
      · left
        rw [hrun]
        refine ⟨fun h => hsavable h.1, fail fault, state'.peer, rfl, ?_⟩
        rw [hlogs]
        rfl
      · right
        refine ⟨hsavable, mount, rfl, state', hnew, ?_⟩
        rcases hended with ⟨hpings, link, hrun⟩ | ⟨hpings, hrun⟩
        · left
          rw [hrun]
          exact ⟨hpings, reply link, rfl⟩
        · right
          rw [hrun]
          exact ⟨hpings, fail .panic, rfl⟩

theorem grows_editHead (env : PeerEnv) :
    Grows ((edit.run state.mount).state).world
      ((editHead env edit).run state).state.peer.world := by
  unfold editHead
  cases hedit : edit.run state.mount with
  | error fault mount =>
      rw [EStateM.run_bind_of_error (run_onMount_of_error hedit)]
      exact Grows.refl _
  | ok _ mount =>
      rw [EStateM.run_bind_of_ok (run_onMount_of_ok hedit)]
      exact (saveMount_keeps_tree env false (state.setMount mount)).1

omit [LawfulPrimitives] in
theorem world_answer {ε α : Type} (fail : Fault → ε) (reply : Link → α)
    (result : EStateM.Result Fault (PeerMount LogTable) Link) :
    (answer fail reply result).state.world = result.state.peer.world := by
  cases result <;> rfl

/-- The store on the way to the save has no blob that the last one lacks. -/
theorem sameBlobs_edit {ε α : Type} {env : PeerEnv} {fail : Fault → ε} {reply : Link → α}
    (hversion : EStateM.Preserves AtVersion edit)
    (h : SameBlobs state.peer.world.blobs
      (answer fail reply ((editHead env edit).run state)).state.world.blobs state.inner.entry) :
    SameBlobs state.mount.world.blobs (edit.run state.mount).state.world.blobs
      state.inner.entry := by
  obtain ⟨opsLog, hedited⟩ := hversion state.mount
  rw [world_answer] at h
  exact h.between hedited.grows (grows_editHead env)

end

/-! ## Where they agree -/

/-- Both fail and the head stays, or both succeed and the trees of the two heads have the same
paths and contents. -/
def HandlersAgree {ε ε' α α' : Type} (id : Uuid) (peer : PeerState LogTable)
    (moved : EStateM.Result ε (PeerState LogTable) α)
    (renamed : EStateM.Result ε' (PeerState LogTable) α') : Prop :=
  (FailsAtHead id peer moved ∧ FailsAtHead id peer renamed) ∨
  ∃ response peer' response' peer'' entry entry',
    moved = .ok response peer' ∧ renamed = .ok response' peer'' ∧
    HeadTree peer' id entry ∧ HeadTree peer'' id entry' ∧
    SameFiles peer'.world.blobs peer''.world.blobs entry entry'

/-- Where the two requests would change the head, the destination is below the source of a
file that cannot be read, or it is not and the file can, and no ping panics. -/
def MovesAlike (state : PeerMount LogTable) (source target : List Name) : Prop :=
  Savable state → Relinkable state.mount source target →
    if source <+: target then ¬ ∃ data, state.mount.cat (absPath source) = .ok data
    else (∃ data, state.mount.cat (absPath source) = .ok data) ∧ Pingable state

/-- The request has changed the head to one with the file in the new place. -/
structure MovedHead {ε α : Type} (state : PeerMount LogTable) (id : Uuid) (links : List Link)
    (source target : List Name) (file : NodeLink) (removed moved : MountState)
    (state' : PeerMount LogTable) (result : EStateM.Result ε (PeerState LogTable) α) : Prop where
  relinked : Relinked state.mount source target file removed moved
  head : NewHead (state.setMount moved) state' id links
  ended : (Pingable state ∧ ∃ response, result = .ok response state'.peer) ∨
    (¬ Pingable state ∧ ∃ error, result = .error error state'.peer)

section

variable {state state' : PeerMount LogTable} {id : Uuid} {links : List Link}
  {source target : List Name} {file : NodeLink} {removed moved : MountState} {ε α : Type}
  {result : EStateM.Result ε (PeerState LogTable) α}

omit [LawfulPrimitives] in
theorem MovedHead.not_failsAtHead (hat : AtHead state id links)
    (h : MovedHead state id links source target file removed moved state' result) :
    ¬ FailsAtHead id state.peer result := by
  intro ⟨error, peer', hrun, hhead⟩
  rcases h.ended with ⟨-, response, hok⟩ | ⟨-, error', herror⟩
  · rw [hok] at hrun
    contradiction
  · rw [herror] at hrun
    cases hrun
    exact head_ne_of_newHead hat h.head hhead

omit [LawfulPrimitives] in
theorem FailsAtHead.ne_ok {peer peer' : PeerState LogTable} {response : α}
    (h : FailsAtHead id peer result) : result ≠ .ok response peer' := by
  intro hok
  obtain ⟨error, last, hrun, -⟩ := h
  rw [hok] at hrun
  contradiction

end

theorem atVersion_copyTo (source target : Path) (data : Bytes) :
    EStateM.Preserves AtVersion (copyTo source target data) :=
  atVersion_bind (records_rm source).atVersion (fun _ => (records_add target data).atVersion)

section

variable {env : PeerEnv} {peer : PeerState LogTable} {id : Uuid} {links : List Link}
  {inner : MountInner} {oldPath newPath : Name} {source target : List Name} {file : NodeLink}

theorem mvHandler_outcome (hchain : SingleChain peer id links)
    (hload : peer.mountHead env id = .ok inner) (hold : Path.parse oldPath = absPath source)
    (hnew : Path.parse newPath = absPath target)
    (hfile : MountState.get ⟨peer.world, inner⟩ (absPath source) = .ok file)
    (hsame : SameBlobs peer.world.blobs
      ((mvHandler env ⟨id, oldPath, newPath⟩).run peer).state.world.blobs inner.entry) :
    (¬ (Savable ⟨peer, inner⟩ ∧ ¬ source <+: target ∧
        Relinkable ⟨peer.world, inner⟩ source target) ∧
      FailsAtHead id peer ((mvHandler env ⟨id, oldPath, newPath⟩).run peer)) ∨
    ((Savable ⟨peer, inner⟩ ∧ ¬ source <+: target ∧
        Relinkable ⟨peer.world, inner⟩ source target) ∧
      ∃ removed moved state', MovedHead ⟨peer, inner⟩ id links source target file removed moved
        state' ((mvHandler env ⟨id, oldPath, newPath⟩).run peer)) := by
  have hversion := (records_mv (absPath source) (absPath target)).atVersion
  rw [run_mvHandler hload hold hnew] at hsame ⊢
  have hedit := mv_outcome (get_eq_ok_iff.mp hfile)
    (@sameBlobs_edit _ _ ⟨peer, inner⟩ _ _ _ _ _ _ hversion hsame)
  rcases editHead_outcome (AtHead.of_mountHead hchain hload) env hversion MvError.mount
      (MvResponse.mk oldPath newPath) with ⟨hnot, hfails⟩ |
        ⟨hsavable, moved, hrun, state', hnew, hended⟩
  · left
    refine ⟨?_, hfails⟩
    rintro ⟨hsavable, hmoves⟩
    rcases hedit with ⟨hrefused, -⟩ | ⟨-, removed, moved, hrun, -⟩
    · exact hrefused hmoves
    · exact hnot ⟨hsavable, moved, hrun⟩
  · right
    rcases hedit with ⟨-, fault, failed, hfailed⟩ | ⟨hmoves, removed, moved', hrun', hrelinked⟩
    · rw [show (mv (absPath source) (absPath target)).run ⟨peer.world, inner⟩ = _ from hrun]
        at hfailed
      contradiction
    · rw [show (mv (absPath source) (absPath target)).run ⟨peer.world, inner⟩ = _ from hrun]
        at hrun'
      cases hrun'
      exact ⟨⟨hsavable, hmoves⟩, removed, moved, state', hrelinked, hnew, hended⟩

theorem renameHandler_outcome (hchain : SingleChain peer id links)
    (hload : peer.mountHead env id = .ok inner) (hold : Path.parse oldPath = absPath source)
    (hnew : Path.parse newPath = absPath target)
    (hfile : MountState.get ⟨peer.world, inner⟩ (absPath source) = .ok file)
    (hsame : SameBlobs peer.world.blobs
      ((renameHandler env ⟨id, oldPath, newPath⟩).run peer).state.world.blobs inner.entry) :
    (¬ (Savable ⟨peer, inner⟩ ∧
        (∃ data, MountState.cat ⟨peer.world, inner⟩ (absPath source) = .ok data) ∧
        Relinkable ⟨peer.world, inner⟩ source target) ∧
      FailsAtHead id peer ((renameHandler env ⟨id, oldPath, newPath⟩).run peer)) ∨
    ((Savable ⟨peer, inner⟩ ∧ Relinkable ⟨peer.world, inner⟩ source target) ∧
      ∃ data, MountState.cat ⟨peer.world, inner⟩ (absPath source) = .ok data ∧
      ∃ copy removed copied state', HoldsBytes copied.world.blobs copy data ∧
        MovedHead ⟨peer, inner⟩ id links source target copy removed copied state'
          ((renameHandler env ⟨id, oldPath, newPath⟩).run peer)) := by
  rcases renameHandler_cases hload hold hnew hfile with ⟨hrefused, error, hrun⟩ |
    ⟨hfree, data, hdata, hrun⟩
  · left
    refine ⟨?_, error, peer, hrun, rfl⟩
    rintro ⟨-, hreadable, hrelinkable⟩
    rcases hrefused with htaken | hunreadable
    · exact hrelinkable.free htaken
    · exact hunreadable hreadable
  have hversion := atVersion_copyTo (absPath source) (absPath target) data
  rw [hrun] at hsame ⊢
  have hedit := copyTo_outcome (get_eq_ok_iff.mp hfile) hfree
    (@sameBlobs_edit _ _ ⟨peer, inner⟩ _ _ _ _ _ _ hversion hsame)
  rcases editHead_outcome (AtHead.of_mountHead hchain hload) env hversion RenameError.mount
      (RenameResponse.mk oldPath newPath) with ⟨hnot, hfails⟩ |
        ⟨hsavable, copied, hrun, state', hnew, hended⟩
  · left
    refine ⟨?_, hfails⟩
    rintro ⟨hsavable, -, hrelinkable⟩
    rcases hedit with ⟨hrefused, -⟩ | ⟨-, removed, copied, copy, hrun, -⟩
    · exact hrefused hrelinkable
    · exact hnot ⟨hsavable, copied, hrun⟩
  · right
    rcases hedit with ⟨-, fault, failed, hfailed⟩ |
      ⟨hrelinkable, removed, copied', copy, hrun', hbytes, hrelinked⟩
    · rw [show (copyTo (absPath source) (absPath target) data).run ⟨peer.world, inner⟩ = _
        from hrun] at hfailed
      contradiction
    · rw [show (copyTo (absPath source) (absPath target) data).run ⟨peer.world, inner⟩ = _
        from hrun] at hrun'
      cases hrun'
      exact ⟨⟨hsavable, hrelinkable⟩, data, hdata, copy, removed, copied, state', hbytes,
        hrelinked, hnew, hended⟩

end

/-- A tree with all its blobs is safe from the ones that are stored. -/
theorem sameBlobs_of_complete {env : PeerEnv} {peer : PeerState LogTable} {id : Uuid}
    {inner : MountInner} {oldPath newPath : Name} {source target : List Name} {file : NodeLink}
    (hload : peer.mountHead env id = .ok inner) (hold : Path.parse oldPath = absPath source)
    (hnew : Path.parse newPath = absPath target)
    (hfile : MountState.get ⟨peer.world, inner⟩ (absPath source) = .ok file)
    (hcomplete : Complete peer.world.blobs inner.entry) :
    SameBlobs peer.world.blobs
        ((mvHandler env ⟨id, oldPath, newPath⟩).run peer).state.world.blobs inner.entry ∧
      SameBlobs peer.world.blobs
        ((renameHandler env ⟨id, oldPath, newPath⟩).run peer).state.world.blobs
          inner.entry := by
  have hgrows : ∀ edit : MountM Unit, EStateM.Preserves AtVersion edit →
      Grows peer.world ((editHead env edit).run ⟨peer, inner⟩).state.peer.world := by
    intro edit hversion
    obtain ⟨opsLog, hedited⟩ := hversion ⟨peer.world, inner⟩
    exact hedited.grows.trans (@grows_editHead _ _ ⟨peer, inner⟩ edit env)
  constructor
  · apply hcomplete.sameBlobs
    rw [run_mvHandler hload hold hnew, world_answer]
    exact hgrows _ (records_mv _ _).atVersion
  · apply hcomplete.sameBlobs
    rcases renameHandler_cases hload hold hnew hfile with ⟨-, error, hrun⟩ |
      ⟨-, data, -, hrun⟩
    · rw [hrun]
      exact Grows.refl _
    · rw [hrun, world_answer]
      exact hgrows _ (atVersion_copyTo _ _ _)

/-- On a file the two endpoints agree exactly where nothing would change the head, and where
the destination is not below the source, the file can be read and no ping panics. -/
theorem rename_agrees_mv_iff (env : PeerEnv) (peer : PeerState LogTable) (id : Uuid)
    (links : List Link) (hchain : SingleChain peer id links) (inner : MountInner)
    (hload : peer.mountHead env id = .ok inner) (oldPath newPath : Name)
    (source target : List Name) (hold : Path.parse oldPath = absPath source)
    (hnew : Path.parse newPath = absPath target)
    (hfile : ∃ link secret mime,
      MountState.get ⟨peer.world, inner⟩ (absPath source) = .ok (.data link secret mime))
    (hmoved : SameBlobs peer.world.blobs
      ((mvHandler env ⟨id, oldPath, newPath⟩).run peer).state.world.blobs inner.entry)
    (hrenamed : SameBlobs peer.world.blobs
      ((renameHandler env ⟨id, oldPath, newPath⟩).run peer).state.world.blobs inner.entry) :
    HandlersAgree id peer ((mvHandler env ⟨id, oldPath, newPath⟩).run peer)
      ((renameHandler env ⟨id, oldPath, newPath⟩).run peer) ↔
      MovesAlike ⟨peer, inner⟩ source target := by
  obtain ⟨link, secret, mime, hfile⟩ := hfile
  have hat := AtHead.of_mountHead hchain hload
  unfold HandlersAgree MovesAlike
  simp only [show (PeerMount.mount ⟨peer, inner⟩ : MountState) = ⟨peer.world, inner⟩ from rfl]
  rcases mvHandler_outcome hchain hload hold hnew hfile hmoved with ⟨hnot, hfails⟩ |
    ⟨⟨hsavable, houtside, hrelinkable⟩, removed, moved, state', hmv⟩
  · rcases renameHandler_outcome hchain hload hold hnew hfile hrenamed with ⟨hnot', hfails'⟩ |
      ⟨⟨hsavable, hrelinkable⟩, data, hdata, copy, removed, copied, state', -, hrename⟩
    · -- neither reaches the head
      apply iff_of_true (Or.inl ⟨hfails, hfails'⟩)
      intro hsavable hrelinkable
      have hbelow : source <+: target := by
        by_contra houtside
        exact hnot ⟨hsavable, houtside, hrelinkable⟩
      rw [if_pos hbelow]
      exact fun hreadable => hnot' ⟨hsavable, hreadable, hrelinkable⟩
    · -- the copy is made below the file, which `mv` refuses
      apply iff_of_false
      · rintro (⟨-, hfails'⟩ | ⟨response, peer', -, -, -, -, hok, -⟩)
        · exact hrename.not_failsAtHead hat hfails'
        · exact hfails.ne_ok hok
      · intro hcond
        have hbelow : source <+: target := by
          by_contra houtside
          exact hnot ⟨hsavable, houtside, hrelinkable⟩
        have hunreadable := hcond hsavable hrelinkable
        rw [if_pos hbelow] at hunreadable
        exact hunreadable ⟨data, hdata⟩
  · rcases renameHandler_outcome hchain hload hold hnew hfile hrenamed with ⟨hnot', hfails'⟩ |
      ⟨-, data, hdata, copy, removed', copied, state'', hcopy, hrename⟩
    · -- the file is moved unread
      apply iff_of_false
      · rintro (⟨hfails, -⟩ | ⟨-, -, response, peer', -, -, -, hok, -⟩)
        · exact hmv.not_failsAtHead hat hfails
        · exact hfails'.ne_ok hok
      · intro hcond
        have hreadable := hcond hsavable hrelinkable
        rw [if_neg houtside] at hreadable
        exact hnot' ⟨hsavable, hreadable.1, hrelinkable⟩
    · -- both reach the head, and panic together
      constructor
      · rintro (⟨hfails, -⟩ | ⟨response, peer', -, -, -, -, hok, -⟩) _ _
        · exact absurd hfails (hmv.not_failsAtHead hat)
        · rw [if_neg houtside]
          refine ⟨⟨data, hdata⟩, ?_⟩
          rcases hmv.ended with ⟨hpings, -⟩ | ⟨-, error, herror⟩
          · exact hpings
          · rw [herror] at hok
            contradiction
      · intro hcond
        have hpings := hcond hsavable hrelinkable
        rw [if_neg houtside] at hpings
        right
        rcases hmv.ended with ⟨-, response, hrun⟩ | ⟨hpanics, -⟩
        swap
        · exact absurd hpings.2 hpanics
        rcases hrename.ended with ⟨-, response', hrun'⟩ | ⟨hpanics, -⟩
        swap
        · exact absurd hpings.2 hpanics
        obtain ⟨found, hfound, hbytes⟩ := cat_eq_ok_iff_holdsBytes.mp hdata
        obtain rfl : NodeLink.data link secret mime = found :=
          Option.some.inj ((get_eq_ok_iff.mp hfile).symm.trans hfound)
        rw [hrun] at hmoved
        rw [hrun'] at hrenamed
        exact ⟨response, state'.peer, response', state''.peer, moved.inner.entry,
          copied.inner.entry, hrun, hrun', hmv.head.tree, hrename.head.tree,
          sameFiles_of_relinked hfound hbytes hcopy hmv.relinked hrename.relinked
            hmv.head.grows hrename.head.grows hmoved hrenamed⟩

end

namespace Reference

/-- A request that adds the file `/a`. -/
def addActions : List RequestAction :=
  [.arrive aliceEnv false, .act 0 .advance, .act 0 .advance, .act 0 .advance,
    .act 0 (.operate (.add (absPath ["a".toList]) [1])),
    .act 0 .advance, .act 0 .advance, .act 0 .advance, .act 0 .advance]

def filedTable : PeerState LogTable :=
  ((RequestSystem.start createdTable).run ⟨7⟩ addActions).peer

theorem exists_chain_filedTable : ∃ links, SingleChain filedTable ⟨7⟩ links := by
  obtain ⟨genesis, hchain⟩ := exists_chain_createdTable
  have hstart : (RequestSystem.start createdTable).Chained ⟨7⟩ [genesis] :=
    ⟨hchain, fun request hrequest => absurd hrequest List.not_mem_nil⟩
  obtain ⟨later, hlater⟩ := RequestSystem.chained_run hstart addActions
  exact ⟨_, hlater.chain⟩

theorem exists_mount_filedTable : ∃ inner, filedTable.mountHead aliceEnv ⟨7⟩ = .ok inner ∧
    Complete filedTable.world.blobs inner.entry ∧
    MountState.cat ⟨filedTable.world, inner⟩ (absPath ["a".toList]) = .ok [1] := by
  have hfacts : ((filedTable.mountHead aliceEnv ⟨7⟩).toOption.any (fun inner =>
      inner.entry.links.toList.all (fun item =>
        (filedTable.world.blobs item.2.link.hash).isSome &&
          decide (loadNode filedTable.world.blobs item.2 = none)) &&
      decide ((MountState.cat ⟨filedTable.world, inner⟩ (absPath ["a".toList])).toOption =
        some [1]))) = true := by
    decide +kernel
  obtain ⟨inner, hinner, hchecked⟩ := (Option.any_eq_true _ _).mp hfacts
  obtain ⟨hitems, hdata⟩ := Bool.and_eq_true_iff.mp hchecked
  refine ⟨inner, Except.eq_ok_of_toOption hinner, ?_,
    Except.eq_ok_of_toOption (of_decide_eq_true hdata)⟩
  apply complete_of_files
  intro item hitem
  obtain ⟨hstored, hfile⟩ := Bool.and_eq_true_iff.mp (List.all_eq_true.mp hitems item hitem)
  exact ⟨hstored, of_decide_eq_true hfile⟩

/-- `/a` is renamed to `/a/b`, which `mv` refuses. -/
theorem rename_below_itself :
    (∃ links, SingleChain filedTable ⟨7⟩ links) ∧
      (∃ inner, filedTable.mountHead aliceEnv ⟨7⟩ = .ok inner ∧
        MountState.cat ⟨filedTable.world, inner⟩ (absPath ["a".toList]) = .ok [1]) ∧
      ¬ HandlersAgree ⟨7⟩ filedTable
        ((mvHandler aliceEnv ⟨⟨7⟩, "/a".toList, "/a/b".toList⟩).run filedTable)
        ((renameHandler aliceEnv ⟨⟨7⟩, "/a".toList, "/a/b".toList⟩).run filedTable) := by
  have hmv : ((mvHandler aliceEnv ⟨⟨7⟩, "/a".toList, "/a/b".toList⟩).run
      filedTable).errorAnd (fun _ _ => true) = true := by
    decide +kernel
  have hrename : ((renameHandler aliceEnv ⟨⟨7⟩, "/a".toList, "/a/b".toList⟩).run
      filedTable).okAnd (fun _ => true) = true := by
    decide +kernel
  obtain ⟨inner, hload, -, hdata⟩ := exists_mount_filedTable
  refine ⟨exists_chain_filedTable, ⟨inner, hload, hdata⟩, ?_⟩
  obtain ⟨error, peer, hmoved, -⟩ := EStateM.Result.exists_of_errorAnd hmv
  obtain ⟨response, peer', hrenamed, -⟩ := EStateM.Result.exists_of_okAnd hrename
  rw [hmoved, hrenamed]
  rintro (⟨-, error, peer, hfails, -⟩ | ⟨response, peer, -, -, -, -, hok, -⟩)
  · cases hfails
  · cases hok

/-- `/a` is renamed to `/b`. -/
theorem rename_agrees_mv_filedTable :
    ((mvHandler aliceEnv ⟨⟨7⟩, "/a".toList, "/b".toList⟩).run filedTable).okAnd
        (fun _ => true) = true ∧
      HandlersAgree ⟨7⟩ filedTable
        ((mvHandler aliceEnv ⟨⟨7⟩, "/a".toList, "/b".toList⟩).run filedTable)
        ((renameHandler aliceEnv ⟨⟨7⟩, "/a".toList, "/b".toList⟩).run filedTable) := by
  refine ⟨by decide +kernel, ?_⟩
  obtain ⟨links, hchain⟩ := exists_chain_filedTable
  obtain ⟨inner, hload, hcomplete, hdata⟩ := exists_mount_filedTable
  obtain ⟨link, secret, mime, blob, hfound, -, -⟩ := cat_absPath.mp hdata
  have hfile : MountState.get ⟨filedTable.world, inner⟩ (absPath ["a".toList]) =
      .ok (.data link secret mime) := get_eq_ok_iff.mpr hfound
  have hold : Path.parse "/a".toList = absPath ["a".toList] := by decide +kernel
  have hnew : Path.parse "/b".toList = absPath ["b".toList] := by decide +kernel
  obtain ⟨hmoved, hrenamed⟩ := sameBlobs_of_complete hload hold hnew hfile hcomplete
  apply (rename_agrees_mv_iff aliceEnv filedTable ⟨7⟩ links hchain inner hload "/a".toList
    "/b".toList ["a".toList] ["b".toList] hold hnew ⟨link, secret, mime, hfile⟩ hmoved
      hrenamed).mpr
  intro _ _
  rw [if_neg (by decide)]
  refine ⟨⟨[1], hdata⟩, ?_⟩
  -- every 32 bytes are a point here
  rintro key - ⟨-, bytes, -, hpoint⟩
  cases hpoint

end Reference

end JaxFs

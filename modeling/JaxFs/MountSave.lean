import JaxFs.MountAnswers

/-!
# What a save writes

A save stores the tree, the operation log and a manifest that points back to the
version the mount was at.  Nothing in the store is lost by it, and the manifest is
new: its entry is encrypted under a nonce drawn for it.
-/

namespace JaxFs

section

variable [P : Primitives]

/-! ## Reads that stay -/

/-- The blob under the hash, if there is one, is in the other store too. -/
def KeepsBlob (blobs blobs' : Blobs) (hash : Hash) : Prop :=
  ∀ data, blobs hash = some data → blobs' hash = some data

section

variable {blobs blobs' : Blobs} {link : Link}

theorem KeepsBlob.getManifestFromBlobs (h : KeepsBlob blobs blobs' link.hash)
    {manifest : Manifest} (hread : getManifestFromBlobs blobs link = .ok manifest) :
    getManifestFromBlobs blobs' link = .ok manifest := by
  unfold JaxFs.getManifestFromBlobs at hread ⊢
  cases hblob : blobs link.hash with
  | none => simp [hblob] at hread
  | some blob =>
      rw [h blob hblob]
      rw [hblob] at hread
      exact hread

omit P in
theorem KeepsBlob.getPinsFromBlobs (h : KeepsBlob blobs blobs' link.hash) {pins : Pins}
    (hread : getPinsFromBlobs blobs link = .ok pins) :
    getPinsFromBlobs blobs' link = .ok pins := by
  unfold JaxFs.getPinsFromBlobs readHashList at hread ⊢
  cases hblob : blobs link.hash with
  | none => simp [hblob] at hread
  | some blob =>
      rw [h blob hblob]
      rw [hblob] at hread
      exact hread

theorem KeepsBlob.getNodeFromBlobs {nodeLink : NodeLink}
    (h : KeepsBlob blobs blobs' nodeLink.link.hash) {node : Node}
    (hread : getNodeFromBlobs blobs nodeLink = .ok node) :
    getNodeFromBlobs blobs' nodeLink = .ok node := by
  unfold JaxFs.getNodeFromBlobs at hread ⊢
  cases hblob : blobs nodeLink.link.hash with
  | none => simp [hblob] at hread
  | some blob =>
      rw [h blob hblob]
      rw [hblob] at hread
      exact hread

theorem KeepsBlob.getOpsLogFromBlobs (h : KeepsBlob blobs blobs' link.hash)
    {secret : Secret} {log : PathOpLog}
    (hread : getOpsLogFromBlobs blobs link secret = .ok log) :
    getOpsLogFromBlobs blobs' link secret = .ok log := by
  unfold JaxFs.getOpsLogFromBlobs at hread ⊢
  cases hblob : blobs link.hash with
  | none => simp [hblob] at hread
  | some blob =>
      rw [h blob hblob]
      rw [hblob] at hread
      exact hread

theorem loadOpsLog_of_keepsBlob {opsLink : Option Link} {secret : Secret}
    {log : PathOpLog} (h : ∀ link, opsLink = some link → KeepsBlob blobs blobs' link.hash)
    (hread : loadOpsLog blobs opsLink secret = .ok log) :
    loadOpsLog blobs' opsLink secret = .ok log := by
  unfold loadOpsLog at hread ⊢
  cases opsLink with
  | none => exact hread
  | some link =>
      dsimp only at hread ⊢
      cases hlog : getOpsLogFromBlobs blobs link secret with
      | error fault =>
          rw [hlog] at hread
          contradiction
      | ok found =>
          rw [hlog] at hread
          rw [(h link rfl).getOpsLogFromBlobs hlog]
          exact hread

end

theorem Grows.keepsBlob {world world' : World} (h : Grows world world') (hash : Hash) :
    KeepsBlob world.blobs world'.blobs hash := h.blobs hash

theorem Grows.getManifestFromBlobs {world world' : World} (h : Grows world world')
    {link : Link} {manifest : Manifest}
    (hread : getManifestFromBlobs world.blobs link = .ok manifest) :
    getManifestFromBlobs world'.blobs link = .ok manifest :=
  (h.keepsBlob _).getManifestFromBlobs hread

theorem Grows.getOpsLogFromBlobs {world world' : World} (h : Grows world world')
    {link : Link} {secret : Secret} {log : PathOpLog}
    (hread : getOpsLogFromBlobs world.blobs link secret = .ok log) :
    getOpsLogFromBlobs world'.blobs link secret = .ok log :=
  (h.keepsBlob _).getOpsLogFromBlobs hread

/-! ## Growth -/

theorem grows_bind {α β : Type} {x : BlobM α} {f : α → BlobM β}
    (hx : EStateM.Preserves Grows x) (hf : ∀ a, EStateM.Preserves Grows (f a)) :
    EStateM.Preserves Grows (x >>= f) :=
  hx.bind (fun _ _ _ => Grows.trans) hf

theorem grows_generateSecret : EStateM.Preserves Grows generateSecret :=
  fun _ => ⟨fun _ _ h => h, Nat.le_succ _⟩

theorem grows_encryptData (secret : Secret) (data : Bytes) :
    EStateM.Preserves Grows (encryptData secret data) :=
  fun _ => ⟨fun _ _ h => h, Nat.le_succ _⟩

theorem grows_newSecretShare (secret : Secret) (recipient : PublicKey) :
    EStateM.Preserves Grows (newSecretShare secret recipient) := by
  apply grows_bind (grows_getrandom secretSize)
  intro entropy
  cases P.newSecretShare entropy secret recipient with
  | none => exact Grows.refl
  | some share => exact Grows.refl

variable [LawfulPrimitives]

theorem grows_putNodeInBlobs (node : Node) (secret : Secret) :
    EStateM.Preserves Grows (putNodeInBlobs node secret) := by
  intro world
  obtain ⟨link, world', hrun, hgrows, -⟩ := putNodeInBlobs_spec node secret world
  rw [hrun]
  exact hgrows

theorem grows_putOpsLogInBlobs (opsLog : PathOpLog) (secret : Secret) :
    EStateM.Preserves Grows (putOpsLogInBlobs opsLog secret) := by
  apply grows_bind (grows_encryptData _ _)
  intro data
  apply grows_bind (grows_put data)
  exact fun _ => Grows.refl

theorem grows_saveOpsLog (opsLog : PathOpLog) (secret : Secret) :
    EStateM.Preserves Grows (saveOpsLog opsLog secret) := by
  unfold saveOpsLog
  split_ifs
  · exact Grows.refl
  · apply grows_bind (grows_putOpsLogInBlobs opsLog secret)
    exact fun _ => Grows.refl

theorem grows_putPinsInBlobs (pins : Pins) :
    EStateM.Preserves Grows (putPinsInBlobs pins) := by
  apply grows_bind (grows_put _)
  exact fun _ => Grows.refl

theorem grows_putManifestInBlobs (manifest : Manifest) :
    EStateM.Preserves Grows (putManifestInBlobs manifest) := by
  apply grows_bind (grows_put _)
  exact fun _ => Grows.refl

omit [LawfulPrimitives] in
theorem grows_rewrapShares (secret : Secret) (pending : List (Name × Share))
    (shares : Shares) : EStateM.Preserves Grows (rewrapShares secret pending shares) := by
  induction pending generalizing shares with
  | nil => exact Grows.refl
  | cons first rest ih =>
      rw [rewrapShares]
      split_ifs
      · apply grows_bind (grows_newSecretShare secret _)
        exact fun _ => ih _
      · exact ih shares

theorem grows_saveVersion (inner : MountInner) (publish : Bool) :
    EStateM.Preserves Grows (saveVersion inner publish) := by
  apply grows_bind grows_generateSecret
  intro secret
  apply grows_bind (grows_putNodeInBlobs _ _)
  intro entry
  apply grows_bind (grows_saveOpsLog _ _)
  intro opsLogLink
  apply grows_bind (grows_putPinsInBlobs _)
  intro pinsLink
  apply grows_bind (grows_rewrapShares _ _ _)
  intro shares
  apply grows_bind (grows_putManifestInBlobs _)
  exact fun _ => Grows.refl

/-! ## The new version -/

/-- The version that a save of the mount has stored. -/
structure SavedVersion (inner : MountInner) (world : World) (manifest : Manifest)
    (link : Link) (world' : World) : Prop where
  grows : Grows world world'
  stored : world'.blobs link.hash = some (P.encodeManifest manifest)
  previous : manifest.previous = some inner.link
  height : manifest.height = inner.height + 1
  entry : ∃ secret draw, world.rng ≤ draw ∧ manifest.entry.hash =
    P.hash (Secret.encrypt secret (P.random draw nonceSize) (P.encodeNode inner.entry))
  opsLog : inner.opsLog.isEmpty = false → ∃ opsLink secret,
    manifest.opsLog = some opsLink ∧
      getOpsLogFromBlobs world'.blobs opsLink secret = .ok ⟨inner.opsLog.operations, 0⟩

/-- An operation log that has been put can be read under its secret. -/
theorem getOpsLogFromBlobs_of_putOpsLogInBlobs {opsLog : PathOpLog} {secret : Secret}
    {world world' : World} {link : Link}
    (hrun : (putOpsLogInBlobs opsLog secret).run world = .ok link world') :
    getOpsLogFromBlobs world'.blobs link secret = .ok ⟨opsLog.operations, 0⟩ := by
  have hlength := LawfulPrimitives.length_random (P := P) world.rng nonceSize
  cases hrun
  simp [getOpsLogFromBlobs, Secret.decrypt_encrypt secret hlength,
    LawfulPrimitives.decode_encodeOperations]

/-- The manifest of a new version. -/
structure NewManifest (inner : MountInner) (publish : Bool) (secret : Secret)
    (entry pinsLink : Link) (opsLogLink : Option Link) (shares : Shares)
    (manifest : Manifest) : Prop where
  id : manifest.id = inner.manifest.id
  entry : manifest.entry = entry
  pins : manifest.pins = pinsLink
  opsLog : manifest.opsLog = opsLogLink
  shares : manifest.shares = shares
  previous : manifest.previous = some inner.link
  height : manifest.height = inner.height + 1
  «public» : manifest.public = if publish then some secret else none

omit [LawfulPrimitives] in
/-- What a save that gets through has stored, one thing after the other. -/
theorem saveVersion_stages {inner : MountInner} {publish : Bool} {world world' : World}
    {manifest : Manifest} {link : Link}
    (hrun : (saveVersion inner publish).run world = .ok (manifest, link) world') :
    ∃ secret world1 entry world2 opsLogLink world3 pinsLink world4 shares world5,
      generateSecret.run world = .ok secret world1 ∧
      (putNodeInBlobs inner.entry secret).run world1 = .ok entry world2 ∧
      (saveOpsLog inner.opsLog secret).run world2 = .ok opsLogLink world3 ∧
      (putPinsInBlobs ((inner.pins.extend [entry.hash, inner.link.hash]).extend
        (opsLogLink.map Link.hash).toList)).run world3 = .ok pinsLink world4 ∧
      (rewrapShares secret inner.manifest.shares.toList inner.manifest.shares).run world4 =
        .ok shares world5 ∧
      (putManifestInBlobs manifest).run world5 = .ok link world' ∧
      NewManifest inner publish secret entry pinsLink opsLogLink shares manifest := by
  unfold saveVersion at hrun
  obtain ⟨secret, world1, hsecret, hrun⟩ := EStateM.run_bind_eq_ok_iff.mp hrun
  obtain ⟨entry, world2, hentry, hrun⟩ := EStateM.run_bind_eq_ok_iff.mp hrun
  obtain ⟨opsLogLink, world3, hops, hrun⟩ := EStateM.run_bind_eq_ok_iff.mp hrun
  obtain ⟨pinsLink, world4, hpins, hrun⟩ := EStateM.run_bind_eq_ok_iff.mp hrun
  obtain ⟨shares, world5, hshares, hrun⟩ := EStateM.run_bind_eq_ok_iff.mp hrun
  obtain ⟨newLink, world6, hput, hdone⟩ := EStateM.run_bind_eq_ok_iff.mp hrun
  cases hdone
  refine ⟨secret, world1, entry, world2, opsLogLink, world3, pinsLink, world4, shares, world5,
    hsecret, hentry, hops, hpins, hshares, hput, ?_⟩
  constructor
  case id =>
    cases opsLogLink <;> cases publish <;> simp only [Manifest.sign, Manifest.setOpsLog,
      Manifest.clearOpsLog, Manifest.setHeight, Manifest.setEntry, Manifest.setPrevious,
      Manifest.setPins, Manifest.publish, Manifest.unpublish, if_true, Bool.false_eq_true,
      if_false]
  -- whatever was published and persisted
  all_goals cases opsLogLink <;> cases publish <;> rfl

theorem savedVersion_of_saveVersion {inner : MountInner} {publish : Bool}
    {world world' : World} {manifest : Manifest} {link : Link}
    (hrun : (saveVersion inner publish).run world = .ok (manifest, link) world') :
    SavedVersion inner world manifest link world' := by
  have hgrows := (grows_saveVersion inner publish).of_ok hrun
  obtain ⟨secret, world1, entry, world2, opsLogLink, world3, pinsLink, world4, shares, world5,
    hsecret, hentry, hops, hpins, hshares, hput, hmanifest⟩ := saveVersion_stages hrun
  refine ⟨hgrows, ?_, hmanifest.previous, hmanifest.height, ?_, ?_⟩
  · cases hput
    rw [World.blobs_store]
    exact Function.update_self _ _ _
  · cases hsecret
    refine ⟨⟨P.random world.rng secretSize⟩, world.rng + 1, Nat.le_succ _, ?_⟩
    rw [hmanifest.entry]
    cases hentry
    rfl
  · intro hnonempty
    unfold saveOpsLog at hops
    rw [hnonempty, if_neg (by simp)] at hops
    obtain ⟨opsLink, world3', hopsLink, hsome⟩ := EStateM.run_bind_eq_ok_iff.mp hops
    cases hsome
    have hlater : Grows world3 world' :=
      ((grows_putPinsInBlobs _).of_ok hpins).trans
        (((grows_rewrapShares _ _ _).of_ok hshares).trans
          ((grows_putManifestInBlobs _).of_ok hput))
    exact ⟨opsLink, secret, hmanifest.opsLog,
      hlater.getOpsLogFromBlobs (getOpsLogFromBlobs_of_putOpsLogInBlobs hopsLink)⟩

omit [LawfulPrimitives] in
/-- The mount after a save that got past the blob store. -/
theorem run_save_eq_ok {publish : Bool} {state state' : MountState}
    {result : Link × Link × ℕ} (hrun : (save publish).run state = .ok result state') :
    ∃ manifest world', (saveVersion state.inner publish).run state.world =
        .ok (manifest, result.1) world' ∧
      result.2 = (state.inner.link, state.inner.height + 1) ∧
      state' = ⟨world', { state.inner with
        manifest := manifest
        height := state.inner.height + 1
        link := result.1
        opsLog := state.inner.opsLog.clearPreservingClock }⟩ := by
  unfold save at hrun
  rw [run_getThe_bind] at hrun
  obtain ⟨⟨manifest, link⟩, middle, hversion, hrest⟩ :=
    EStateM.run_bind_eq_ok_iff.mp hrun
  cases hblobs : (saveVersion state.inner publish).run state.world with
  | error fault world' =>
      rw [run_onBlobs_of_error hblobs] at hversion
      contradiction
  | ok saved world' =>
      rw [run_onBlobs_of_ok hblobs] at hversion
      cases hversion
      cases hrest
      exact ⟨manifest, world', rfl, rfl, rfl⟩

theorem run_save_eq_error {publish : Bool} {state state' : MountState} {fault : Fault}
    (hrun : (save publish).run state = .error fault state') :
    ∃ world', Grows state.world world' ∧ state' = { state with world := world' } := by
  unfold save at hrun
  rw [run_getThe_bind] at hrun
  cases hblobs : (saveVersion state.inner publish).run state.world with
  | error fault' world' =>
      rw [EStateM.run_bind_of_error (run_onBlobs_of_error hblobs)] at hrun
      cases hrun
      exact ⟨world', (grows_saveVersion _ _).of_error hblobs, rfl⟩
  | ok saved world' =>
      rw [EStateM.run_bind_of_ok (run_onBlobs_of_ok hblobs)] at hrun
      contradiction

/-! ## Saves that fail -/

/-- The new secret can be wrapped for every owner. -/
def Wrappable (manifest : Manifest) : Prop :=
  ∀ item ∈ manifest.shares.toList, item.2.role = .owner →
    P.isPoint item.2.principal.identity.bytes = true

theorem newSecretShare_cases (secret : Secret) (hsecret : secret.bytes.length = secretSize)
    (recipient : PublicKey) (world : World) :
    (P.isPoint recipient.bytes = true ∧ ∃ share world',
      (newSecretShare secret recipient).run world = .ok share world') ∨
    (P.isPoint recipient.bytes = false ∧ ∃ world',
      (newSecretShare secret recipient).run world = .error (.error .share) world') := by
  let entropy := P.random world.rng secretSize
  have hpoint := LawfulPrimitives.isSome_newSecretShare entropy secret recipient hsecret
  unfold newSecretShare
  cases hshare : P.newSecretShare entropy secret recipient with
  | some share =>
      left
      rw [hshare] at hpoint
      refine ⟨hpoint.symm, share, { world with rng := world.rng + 1 }, ?_⟩
      rw [EStateM.run_bind_of_ok (show (getrandom secretSize).run world =
        .ok entropy { world with rng := world.rng + 1 } from rfl), hshare]
      rfl
  | none =>
      right
      rw [hshare] at hpoint
      refine ⟨hpoint.symm, { world with rng := world.rng + 1 }, ?_⟩
      rw [EStateM.run_bind_of_ok (show (getrandom secretSize).run world =
        .ok entropy { world with rng := world.rng + 1 } from rfl), hshare]
      rfl

theorem rewrapShares_cases (secret : Secret) (hsecret : secret.bytes.length = secretSize)
    (pending : List (Name × Share)) (shares : Shares) (world : World) :
    ((∀ item ∈ pending, item.2.role = .owner →
        P.isPoint item.2.principal.identity.bytes = true) ∧
      ∃ shares' world', (rewrapShares secret pending shares).run world =
        .ok shares' world') ∨
    ((¬ ∀ item ∈ pending, item.2.role = .owner →
        P.isPoint item.2.principal.identity.bytes = true) ∧
      ∃ world', (rewrapShares secret pending shares).run world =
        .error (.error .share) world') := by
  induction pending generalizing shares world with
  | nil => exact Or.inl ⟨by simp, shares, world, rfl⟩
  | cons first rest ih =>
      obtain ⟨key, share⟩ := first
      rw [rewrapShares, List.forall_mem_cons]
      by_cases howner : share.role = .owner
      · rw [if_pos howner]
        rcases newSecretShare_cases secret hsecret share.principal.identity world with
          ⟨hpoint, secretShare, middle, hwrap⟩ | ⟨hpoint, middle, hwrap⟩
        · rw [EStateM.run_bind_of_ok hwrap]
          have hfirst : share.role = .owner →
              P.isPoint share.principal.identity.bytes = true := fun _ => hpoint
          rw [and_iff_right hfirst]
          exact ih _ middle
        · right
          rw [EStateM.run_bind_of_error hwrap]
          refine ⟨?_, middle, rfl⟩
          intro hall
          rw [hall.1 howner] at hpoint
          contradiction
      · rw [if_neg howner]
        simp only [howner, false_implies, true_and]
        exact ih shares world

omit [LawfulPrimitives] in
theorem run_saveOpsLog (opsLog : PathOpLog) (secret : Secret) (world : World) :
    ∃ link world', (saveOpsLog opsLog secret).run world = .ok link world' := by
  unfold saveOpsLog
  split_ifs
  · exact ⟨none, world, rfl⟩
  · exact ⟨_, _, rfl⟩

/-- A version can be stored exactly when the keys of the owners are points. -/
theorem saveVersion_cases (inner : MountInner) (publish : Bool) (world : World) :
    (Wrappable inner.manifest ∧ ∃ result world',
      (saveVersion inner publish).run world = .ok result world') ∨
    (¬ Wrappable inner.manifest ∧ ∃ world',
      (saveVersion inner publish).run world = .error (.error .share) world') := by
  let secret : Secret := ⟨P.random world.rng secretSize⟩
  have hsecret : secret.bytes.length = secretSize := LawfulPrimitives.length_random _ _
  unfold saveVersion
  rw [EStateM.run_bind_of_ok (run_generateSecret world)]
  obtain ⟨entry, world1, hentry, -⟩ := putNodeInBlobs_spec inner.entry secret
    ⟨world.blobs, world.rng + 1, world.addressed⟩
  rw [EStateM.run_bind_of_ok hentry]
  obtain ⟨opsLogLink, world2, hops⟩ := run_saveOpsLog inner.opsLog secret world1
  rw [EStateM.run_bind_of_ok hops]
  dsimp only
  have hpins : ∀ pins : Pins, ∃ link world', (putPinsInBlobs pins).run world2 =
      .ok link world' := fun _ => ⟨_, _, rfl⟩
  obtain ⟨pinsLink, world3, hpinsLink⟩ := hpins ((inner.pins.extend
    [entry.hash, inner.link.hash]).extend (opsLogLink.map Link.hash).toList)
  rw [EStateM.run_bind_of_ok hpinsLink]
  rcases rewrapShares_cases secret hsecret inner.manifest.shares.toList
    inner.manifest.shares world3 with ⟨hall, shares, world4, hshares⟩ |
      ⟨hnot, world4, hshares⟩
  · left
    rw [EStateM.run_bind_of_ok hshares]
    exact ⟨hall, _, _, rfl⟩
  · right
    rw [EStateM.run_bind_of_error hshares]
    exact ⟨hnot, world4, rfl⟩

/-! ## Loading -/

omit [LawfulPrimitives] in
/-- Everything a load that succeeds has read. -/
theorem load_eq_ok_iff {blobs : Blobs} {link : Link} {secretKey : SecretKey}
    {inner : MountInner} :
    load blobs link secretKey = .ok inner ↔ ∃ manifest secret pins entry opsLog,
      getManifestFromBlobs blobs link = .ok manifest ∧
      getSecretForManifest manifest secretKey = .ok secret ∧
      getPinsFromBlobs blobs manifest.pins = .ok pins ∧
      getNodeFromBlobs blobs (.dir manifest.entry secret) = .ok entry ∧
      loadOpsLog blobs manifest.opsLog secret = .ok opsLog ∧
      inner = ⟨link, manifest, entry, pins, manifest.height, opsLog,
        P.publicKey secretKey, secretKey⟩ := by
  unfold load
  constructor
  · intro hload
    obtain ⟨manifest, hmanifest, hrest⟩ := Except.bind_eq_ok_iff.mp hload
    obtain ⟨secret, hsecret, hrest⟩ := Except.bind_eq_ok_iff.mp hrest
    obtain ⟨pins, hpins, hrest⟩ := Except.bind_eq_ok_iff.mp hrest
    obtain ⟨entry, hentry, hrest⟩ := Except.bind_eq_ok_iff.mp hrest
    obtain ⟨opsLog, hops, hdone⟩ := Except.bind_eq_ok_iff.mp hrest
    cases hdone
    exact ⟨manifest, secret, pins, entry, opsLog, hmanifest, hsecret, hpins, hentry, hops,
      rfl⟩
  · intro ⟨manifest, secret, pins, entry, opsLog, hmanifest, hsecret, hpins, hentry, hops,
      hinner⟩
    subst hinner
    rw [hmanifest]
    simp only [bind, Except.bind, hsecret, hpins, hentry, hops]
    rfl

omit [LawfulPrimitives] in
theorem Grows.load {world world' : World} (h : Grows world world') {link : Link}
    {secretKey : SecretKey} {inner : MountInner}
    (hload : load world.blobs link secretKey = .ok inner) :
    load world'.blobs link secretKey = .ok inner := by
  obtain ⟨manifest, secret, pins, entry, opsLog, hmanifest, hsecret, hpins, hentry, hops,
    hinner⟩ := load_eq_ok_iff.mp hload
  exact load_eq_ok_iff.mpr ⟨manifest, secret, pins, entry, opsLog,
    h.getManifestFromBlobs hmanifest, hsecret, (h.keepsBlob _).getPinsFromBlobs hpins,
    (h.keepsBlob _).getNodeFromBlobs hentry,
    loadOpsLog_of_keepsBlob (fun _ _ => h.keepsBlob _) hops, hinner⟩

/-- The operations a version was saved with, as a load reads them. -/
def persistedOps (blobs : Blobs) (link : Link) (secretKey : SecretKey) :
    Except Fault PathOpLog := do
  let manifest ← getManifestFromBlobs blobs link
  let secret ← getSecretForManifest manifest secretKey
  loadOpsLog blobs manifest.opsLog secret

omit [LawfulPrimitives] in
theorem persistedOps_of_load {blobs : Blobs} {link : Link} {secretKey : SecretKey}
    {inner : MountInner} (hload : load blobs link secretKey = .ok inner) :
    persistedOps blobs link secretKey = .ok inner.opsLog := by
  obtain ⟨manifest, secret, pins, entry, opsLog, hmanifest, hsecret, -, -, hops, rfl⟩ :=
    load_eq_ok_iff.mp hload
  unfold persistedOps
  rw [hmanifest]
  simp only [bind, Except.bind, hsecret, hops]

end

end JaxFs

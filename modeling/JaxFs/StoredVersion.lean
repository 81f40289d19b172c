import JaxFs.MountSave

/-!
# Versions in the store

What `init` and `save` leave behind for one version: the manifest and, under one
secret, the root node and the operation log; the list of pins; and for every owner a
share from which the key recovers the secret.  A load reads exactly this, so that
its outcome depends only on the share of the key and on the publication.
-/

namespace JaxFs

/-! ## Shares -/

/-- Every share is filed under the key it is for. -/
def Manifest.Filed (manifest : Manifest) : Prop :=
  ∀ name share, manifest.shares.get? name = some share →
    name = share.principal.identity.toHex

theorem Manifest.Filed.identity {manifest : Manifest} (h : manifest.Filed)
    {key : PublicKey} {share : Share} (hshare : manifest.getShare key = some share) :
    share.principal.identity = key :=
  (PublicKey.toHex_injective (h key.toHex share hshare)).symm

theorem Manifest.Filed.addShare {manifest : Manifest} (h : manifest.Filed) (share : Share) :
    (manifest.addShare share).Filed := by
  intro name found hfound
  rw [Manifest.addShare, FinMap.get?_put] at hfound
  split_ifs at hfound with hname
  · cases hfound
    exact hname.symm
  · exact h name found hfound

section

variable [P : Primitives]

/-- The secret is wrapped for the recipient. -/
def Wraps (secret : Secret) (recipient : PublicKey) (wrapped : SecretShare) : Prop :=
  ∃ entropy, P.newSecretShare entropy secret recipient = some wrapped

theorem wraps_of_newSecretShare {secret : Secret} {recipient : PublicKey}
    {world world' : World} {wrapped : SecretShare}
    (hrun : (newSecretShare secret recipient).run world = .ok wrapped world') :
    Wraps secret recipient wrapped := by
  unfold newSecretShare at hrun
  obtain ⟨entropy, middle, hentropy, hwrap⟩ := EStateM.run_bind_eq_ok_iff.mp hrun
  cases hshare : P.newSecretShare entropy secret recipient with
  | none =>
      rw [hshare] at hwrap
      contradiction
  | some share =>
      rw [hshare] at hwrap
      cases hwrap
      exact ⟨entropy, hshare⟩

/-- The loop wraps the secret for the owners and leaves the other shares alone. -/
theorem rewrapShares_get? {secret : Secret} {pending : List (Name × Share)}
    {shares shares' : Shares} {world world' : World}
    (hkeys : pending.Pairwise (fun a b => a.1 < b.1))
    (hrun : (rewrapShares secret pending shares).run world = .ok shares' world')
    (name : Name) :
    (∀ share, (name, share) ∈ pending → share.role = .owner →
      ∃ wrapped, Wraps secret share.principal.identity wrapped ∧
        shares'.get? name = some (share.setShare wrapped)) ∧
    ((∀ share, (name, share) ∈ pending → share.role ≠ .owner) →
      shares'.get? name = shares.get? name) := by
  induction pending generalizing shares world with
  | nil =>
      cases hrun
      simp
  | cons first rest ih =>
      obtain ⟨key, share⟩ := first
      have hfirst := (List.pairwise_cons.mp hkeys).1
      have hrest := (List.pairwise_cons.mp hkeys).2
      rw [rewrapShares] at hrun
      by_cases howner : share.role = .owner
      · rw [if_pos howner] at hrun
        obtain ⟨wrapped, middle, hwrap, hrun⟩ := EStateM.run_bind_eq_ok_iff.mp hrun
        have hih := ih hrest hrun
        constructor
        · intro found hfound hrole
          rcases List.mem_cons.mp hfound with heq | hlater
          · cases heq
            refine ⟨wrapped, wraps_of_newSecretShare hwrap, ?_⟩
            rw [hih.2 ?_, FinMap.get?_put_self]
            intro other hother
            exact absurd (hfirst (name, other) hother) (lt_irrefl _)
          · exact hih.1 found hlater hrole
        · intro hothers
          have hne : key ≠ name := by
            intro heq
            exact hothers share (heq ▸ List.mem_cons_self) howner
          rw [hih.2 (fun other hother => hothers other (List.mem_cons_of_mem _ hother)),
            FinMap.get?_put_of_ne _ _ hne]
      · rw [if_neg howner] at hrun
        have hih := ih hrest hrun
        constructor
        · intro found hfound hrole
          rcases List.mem_cons.mp hfound with heq | hlater
          · cases heq
            exact absurd hrole howner
          · exact hih.1 found hlater hrole
        · intro hothers
          exact hih.2 (fun other hother => hothers other (List.mem_cons_of_mem _ hother))

/-! ## Pins -/

/-- A set of pins that has been put can be read. -/
theorem getPinsFromBlobs_of_putPinsInBlobs {pins : Pins} {world world' : World} {link : Link}
    (hrun : (putPinsInBlobs pins).run world = .ok link world') :
    getPinsFromBlobs world'.blobs link = .ok pins := by
  cases hrun
  simp [getPinsFromBlobs, readHashList, PrefixCode.decodeAll_encode, Except.map,
    Pins.fromVec_toList]

/-! ## Versions -/

/-- One version in the clear. -/
structure Version where
  link : Link
  manifest : Manifest
  secret : Secret
  entry : Node
  pins : Pins
  operations : KeyedMap PathOperation.id

/-- The store holds the version, and its secret is the one that the shares wrap and that
is published. -/
structure Version.Stored (version : Version) (blobs : Blobs) : Prop where
  readManifest : getManifestFromBlobs blobs version.link = .ok version.manifest
  readEntry : getNodeFromBlobs blobs (.dir version.manifest.entry version.secret) =
    .ok version.entry
  readPins : getPinsFromBlobs blobs version.manifest.pins = .ok version.pins
  readOps : loadOpsLog blobs version.manifest.opsLog version.secret =
    .ok (PathOpLog.rebuildClock ⟨version.operations, 0⟩)
  unwraps : ∀ key share, version.manifest.getShare (P.publicKey key) = some share →
    share.role = .owner → ∃ wrapped, share.share = some wrapped ∧
      wrapped.recover key = .ok version.secret
  published : ∀ secret, version.manifest.public = some secret → secret = version.secret

/-- The mount that a load of the version gives. -/
def Version.mount (version : Version) (secretKey : SecretKey) : MountInner :=
  { link := version.link
    manifest := version.manifest
    entry := version.entry
    pins := version.pins
    height := version.manifest.height
    opsLog := PathOpLog.rebuildClock ⟨version.operations, 0⟩
    peerId := P.publicKey secretKey
    secretKey := secretKey }

namespace Version.Stored

variable {version : Version} {blobs : Blobs}

/-- A key that gives access gives the secret of the version. -/
theorem getSecret (h : version.Stored blobs) (secretKey : SecretKey) :
    getSecretForManifest version.manifest secretKey =
      match version.manifest.getShare (P.publicKey secretKey) with
      | none => .error (.error .shareNotFound)
      | some share =>
          match share.role with
          | .owner => .ok version.secret
          | .mirror =>
              if version.manifest.isPublished then .ok version.secret
              else .error (.error .mirrorCannotMount) := by
  unfold getSecretForManifest Manifest.isPublished
  cases hshare : version.manifest.getShare (P.publicKey secretKey) with
  | none => rfl
  | some share =>
      dsimp only
      cases hrole : share.role with
      | owner =>
          obtain ⟨wrapped, hwrapped, hrecover⟩ := h.unwraps secretKey share hshare hrole
          simp [hwrapped, hrecover]
      | mirror =>
          cases hpublic : version.manifest.public with
          | none => rfl
          | some secret => simp [h.published secret hpublic]

theorem secret_eq (h : version.Stored blobs) {secretKey : SecretKey} {secret : Secret}
    (hsecret : getSecretForManifest version.manifest secretKey = .ok secret) :
    secret = version.secret := by
  rw [h.getSecret] at hsecret
  split at hsecret
  · contradiction
  · split at hsecret
    · cases hsecret
      rfl
    · split_ifs at hsecret
      cases hsecret
      rfl

/-- The outcome of a load depends on the secret alone. -/
theorem load_eq (h : version.Stored blobs) (secretKey : SecretKey) :
    load blobs version.link secretKey =
      (getSecretForManifest version.manifest secretKey).map
        (fun _ => version.mount secretKey) := by
  cases hsecret : getSecretForManifest version.manifest secretKey with
  | error fault =>
      unfold load
      rw [h.readManifest]
      simp [bind, Except.bind, hsecret, Except.map]
  | ok secret =>
      rw [Except.map]
      have heq := h.secret_eq hsecret
      subst heq
      exact load_eq_ok_iff.mpr ⟨version.manifest, version.secret, version.pins,
        version.entry, PathOpLog.rebuildClock ⟨version.operations, 0⟩, h.readManifest,
        hsecret, h.readPins, h.readEntry, h.readOps, rfl⟩

theorem eq_mount_of_load (h : version.Stored blobs) {secretKey : SecretKey}
    {inner : MountInner} (hload : load blobs version.link secretKey = .ok inner) :
    inner = version.mount secretKey := by
  rw [h.load_eq] at hload
  cases hsecret : getSecretForManifest version.manifest secretKey with
  | error fault =>
      rw [hsecret] at hload
      contradiction
  | ok secret =>
      rw [hsecret] at hload
      cases hload
      rfl

/-- A store that keeps the blobs a load reads holds the version. -/
theorem of_keepsBlob {blobs' : Blobs} (h : version.Stored blobs)
    (hlink : KeepsBlob blobs blobs' version.link.hash)
    (hentry : KeepsBlob blobs blobs' version.manifest.entry.hash)
    (hpins : KeepsBlob blobs blobs' version.manifest.pins.hash)
    (hops : ∀ link, version.manifest.opsLog = some link → KeepsBlob blobs blobs' link.hash) :
    version.Stored blobs' where
  readManifest := hlink.getManifestFromBlobs h.readManifest
  readEntry := KeepsBlob.getNodeFromBlobs hentry h.readEntry
  readPins := hpins.getPinsFromBlobs h.readPins
  readOps := loadOpsLog_of_keepsBlob hops h.readOps
  unwraps := h.unwraps
  published := h.published

theorem grows {world world' : World} (h : version.Stored world.blobs)
    (hgrows : Grows world world') : version.Stored world'.blobs :=
  h.of_keepsBlob (hgrows.keepsBlob _) (hgrows.keepsBlob _) (hgrows.keepsBlob _)
    (fun _ _ => hgrows.keepsBlob _)

end Version.Stored

/-! ## What a save stores -/

/-- The version is the mount as a save has stored it. -/
structure Version.Saves (version : Version) (inner : MountInner) (publish : Bool) : Prop where
  entry : version.entry = inner.entry
  operations : version.operations = inner.opsLog.operations
  noOpsLog : inner.opsLog.isEmpty = true → version.manifest.opsLog = none
  previous : version.manifest.previous = some inner.link
  height : version.manifest.height = inner.height + 1
  published : version.manifest.isPublished = publish
  pins : version.pins = (inner.pins.extend [version.manifest.entry.hash,
    inner.link.hash]).extend (version.manifest.opsLog.map Link.hash).toList
  roles : ∀ key, (version.manifest.getShare key).map Share.role =
    (inner.manifest.getShare key).map Share.role
  filed : version.manifest.Filed

variable [LawfulPrimitives]

/-- The shares after the loop: the same principals, and the owners can unwrap. -/
theorem getShare_of_rewrapShares {manifest manifest' : Manifest} {secret : Secret}
    {world world' : World} (hfiled : manifest.Filed)
    (hrun : (rewrapShares secret manifest.shares.toList manifest.shares).run world =
      .ok manifest'.shares world') :
    manifest'.Filed ∧
    (∀ key, (manifest'.getShare key).map Share.role =
      (manifest.getShare key).map Share.role) ∧
    ∀ key share, manifest'.getShare (P.publicKey key) = some share →
      share.role = .owner → ∃ wrapped, share.share = some wrapped ∧
        wrapped.recover key = .ok secret := by
  have hloop := rewrapShares_get? manifest.shares.sorted hrun
  have hcases : ∀ name,
      (∃ share wrapped, manifest.shares.get? name = some share ∧ share.role = .owner ∧
        Wraps secret share.principal.identity wrapped ∧
        manifest'.shares.get? name = some (share.setShare wrapped)) ∨
      (manifest'.shares.get? name = manifest.shares.get? name ∧
        ∀ share, manifest.shares.get? name = some share → share.role ≠ .owner) := by
    intro name
    cases hshare : manifest.shares.get? name with
    | none =>
        right
        refine ⟨?_, by simp⟩
        rw [(hloop name).2 ?_, hshare]
        intro share hmem
        rw [FinMap.get?_eq_some_iff.mpr hmem] at hshare
        contradiction
    | some share =>
        by_cases howner : share.role = .owner
        · left
          obtain ⟨wrapped, hwraps, hget⟩ := (hloop name).1 share
            (FinMap.get?_eq_some_iff.mp hshare) howner
          exact ⟨share, wrapped, rfl, howner, hwraps, hget⟩
        · right
          have honly : ∀ found, manifest.shares.get? name = some found →
              found.role ≠ .owner := by
            intro found hfound
            rw [hshare] at hfound
            cases hfound
            exact howner
          refine ⟨?_, fun found hfound => honly found (hshare.trans hfound)⟩
          rw [(hloop name).2 ?_, hshare]
          intro found hmem
          exact honly found (FinMap.get?_eq_some_iff.mpr hmem)
  refine ⟨?_, ?_, ?_⟩
  · intro name share hshare
    rcases hcases name with ⟨old, wrapped, hold, -, -, hnew⟩ | ⟨hsame, -⟩
    · rw [hnew] at hshare
      cases hshare
      exact hfiled name old hold
    · rw [hsame] at hshare
      exact hfiled name share hshare
  · intro key
    unfold Manifest.getShare
    rcases hcases key.toHex with ⟨old, wrapped, hold, -, -, hnew⟩ | ⟨hsame, -⟩
    · rw [hnew, hold]
      rfl
    · rw [hsame]
  · intro key share hshare hrole
    rcases hcases (P.publicKey key).toHex with
      ⟨old, wrapped, hold, -, ⟨entropy, hwraps⟩, hnew⟩ | ⟨hsame, hothers⟩
    · rw [Manifest.getShare, hnew] at hshare
      cases hshare
      rw [hfiled.identity hold] at hwraps
      exact ⟨wrapped, rfl, SecretShare.recover_newSecretShare hwraps⟩
    · rw [Manifest.getShare, hsame] at hshare
      exact absurd hrole (hothers share hshare)

theorem isPoint_of_wraps {secret : Secret} (hsecret : secret.bytes.length = secretSize)
    {recipient : PublicKey} {wrapped : SecretShare} (h : Wraps secret recipient wrapped) :
    P.isPoint recipient.bytes = true := by
  obtain ⟨entropy, hwraps⟩ := h
  have hpoint := LawfulPrimitives.isSome_newSecretShare entropy secret recipient hsecret
  rw [hwraps] at hpoint
  exact hpoint.symm

/-- The operation log of a version, stored or empty. -/
theorem loadOpsLog_of_saveOpsLog {opsLog : PathOpLog} {secret : Secret}
    {world world' : World} {opsLink : Option Link}
    (hrun : (saveOpsLog opsLog secret).run world = .ok opsLink world') :
    loadOpsLog world'.blobs opsLink secret =
        .ok (PathOpLog.rebuildClock ⟨opsLog.operations, 0⟩) ∧
      (opsLog.isEmpty = true → opsLink = none) := by
  unfold saveOpsLog at hrun
  split_ifs at hrun with hempty
  · cases hrun
    have hoperations : opsLog.operations = KeyedMap.empty := KeyedMap.isEmpty_iff.mp hempty
    refine ⟨?_, fun _ => rfl⟩
    rw [hoperations]
    rfl
  · obtain ⟨link, middle, hput, hdone⟩ := EStateM.run_bind_eq_ok_iff.mp hrun
    cases hdone
    refine ⟨?_, fun h => absurd h hempty⟩
    rw [loadOpsLog, getOpsLogFromBlobs_of_putOpsLogInBlobs hput]
    rfl

theorem getManifestFromBlobs_of_putManifestInBlobs {manifest : Manifest}
    {world world' : World} {link : Link}
    (hrun : (putManifestInBlobs manifest).run world = .ok link world') :
    getManifestFromBlobs world'.blobs link = .ok manifest := by
  cases hrun
  simp [getManifestFromBlobs, LawfulPrimitives.decode_encodeManifest]

theorem getNodeFromBlobs_of_putNodeInBlobs {node : Node} {secret : Secret}
    {world world' : World} {link : Link}
    (hrun : (putNodeInBlobs node secret).run world = .ok link world') :
    getNodeFromBlobs world'.blobs (.dir link secret) = .ok node := by
  obtain ⟨found, middle, hput, -, hload⟩ := putNodeInBlobs_spec node secret world
  rw [hput] at hrun
  cases hrun
  exact getNodeFromBlobs_of_loadNode hload

theorem stored_of_saveVersion {inner : MountInner} (hfiled : inner.manifest.Filed)
    {publish : Bool} {world world' : World} {manifest : Manifest} {link : Link}
    (hrun : (saveVersion inner publish).run world = .ok (manifest, link) world') :
    ∃ version : Version, version.link = link ∧ version.manifest = manifest ∧
      version.Stored world'.blobs ∧ version.Saves inner publish := by
  obtain ⟨secret, world1, entry, world2, opsLogLink, world3, pinsLink, world4, shares, world5, -,
    hentry, hops, hpins, hshares, hput, hnew⟩ := saveVersion_stages hrun
  have hlast := (grows_putManifestInBlobs _).of_ok hput
  have hlater4 := ((grows_rewrapShares _ _ _).of_ok hshares).trans hlast
  have hlater3 := ((grows_putPinsInBlobs _).of_ok hpins).trans hlater4
  have hlater2 := ((grows_saveOpsLog _ _).of_ok hops).trans hlater3
  obtain ⟨hreadOps, hnoOps⟩ := loadOpsLog_of_saveOpsLog hops
  have hmanifest := getManifestFromBlobs_of_putManifestInBlobs hput
  rw [← hnew.shares] at hshares
  obtain ⟨hfiled', hroles, hunwraps⟩ := getShare_of_rewrapShares hfiled hshares
  let pins := (inner.pins.extend [entry.hash, inner.link.hash]).extend
    (opsLogLink.map Link.hash).toList
  refine ⟨⟨link, manifest, secret, inner.entry, pins, inner.opsLog.operations⟩, rfl, rfl,
    ?_, ?_⟩
  · constructor
    · exact hmanifest
    · rw [hnew.entry]
      exact (hlater2.keepsBlob _).getNodeFromBlobs (getNodeFromBlobs_of_putNodeInBlobs hentry)
    · rw [hnew.pins]
      exact (hlater4.keepsBlob _).getPinsFromBlobs (getPinsFromBlobs_of_putPinsInBlobs hpins)
    · rw [hnew.opsLog]
      exact loadOpsLog_of_keepsBlob (fun _ _ => hlater3.keepsBlob _) hreadOps
    · exact hunwraps
    · intro found hfound
      rw [hnew.public] at hfound
      cases publish with
      | false => contradiction
      | true =>
          cases hfound
          rfl
  · constructor
    · rfl
    · rfl
    · rw [hnew.opsLog]
      exact hnoOps
    · exact hnew.previous
    · exact hnew.height
    · rw [Manifest.isPublished, hnew.public]
      cases publish <;> rfl
    · rw [hnew.entry, hnew.opsLog]
    · exact hroles
    · exact hfiled'

/-- The mount moves on to the version that a save has stored. -/
theorem stored_of_save {publish : Bool} {state state' : MountState}
    (hfiled : state.inner.manifest.Filed) {result : Link × Link × ℕ}
    (hrun : (save publish).run state = .ok result state') :
    ∃ version : Version, version.Stored state'.world.blobs ∧
      version.Saves state.inner publish ∧
      result = (version.link, state.inner.link, state.inner.height + 1) ∧
      state'.inner = { state.inner with
        manifest := version.manifest
        height := state.inner.height + 1
        link := version.link
        opsLog := state.inner.opsLog.clearPreservingClock } := by
  obtain ⟨manifest, world', hversion, hresult, rfl⟩ := run_save_eq_ok hrun
  obtain ⟨version, hlink, rfl, hstored, hsaves⟩ := stored_of_saveVersion hfiled hversion
  refine ⟨version, hstored, hsaves, ?_, ?_⟩
  · rw [hlink, ← hresult]
  · rw [hlink]

/-- A save succeeds when the keys of the owners are points. -/
theorem exists_save {state : MountState} (hwrappable : Wrappable state.inner.manifest)
    (publish : Bool) : ∃ result state', (save publish).run state = .ok result state' := by
  rcases saveVersion_cases state.inner publish state.world with
    ⟨-, ⟨manifest, link⟩, world', hversion⟩ | ⟨hnot, -⟩
  · unfold save
    rw [run_getThe_bind, EStateM.run_bind_of_ok (run_onBlobs_of_ok hversion)]
    exact ⟨_, _, rfl⟩
  · exact absurd hwrappable hnot

omit [LawfulPrimitives] in
/-- The owners of the new version are those of the old one. -/
theorem Version.Saves.wrappable {version : Version} {inner : MountInner} {publish : Bool}
    (h : version.Saves inner publish) (hfiled : inner.manifest.Filed)
    (hwrappable : Wrappable inner.manifest) : Wrappable version.manifest := by
  intro item hitem howner
  have hshare : version.manifest.shares.get? item.1 = some item.2 :=
    FinMap.get?_eq_some_iff.mpr hitem
  have hname := h.filed item.1 item.2 hshare
  have hroles := h.roles item.2.principal.identity
  rw [Manifest.getShare, ← hname, hshare, Option.map_some, howner] at hroles
  obtain ⟨old, hold, hrole⟩ := Option.map_eq_some_iff.mp hroles.symm
  have hpoint := hwrappable (item.2.principal.identity.toHex, old)
    (FinMap.get?_eq_some_iff.mp hold) hrole
  rwa [hfiled.identity hold] at hpoint

/-- The first version: the empty tree, and a share for its owner. -/
theorem stored_of_init {id : Uuid} {name : Name} {owner : SecretKey} {world world' : World}
    {inner : MountInner} (hrun : (init id name owner).run world = .ok inner world') :
    ∃ version : Version, version.Stored world'.blobs ∧ inner = version.mount owner ∧
      version.entry = Node.default ∧ version.operations = KeyedMap.empty ∧
      version.manifest.opsLog = none ∧ version.manifest.previous = none ∧
      version.pins = Pins.extend KeyedMap.empty [version.manifest.entry.hash] ∧
      version.manifest.Filed ∧ Wrappable version.manifest ∧
      (version.manifest.getShare (P.publicKey owner)).map Share.role = some .owner := by
  unfold init at hrun
  obtain ⟨secret, world1, hsecret, hrun⟩ := EStateM.run_bind_eq_ok_iff.mp hrun
  obtain ⟨entry, world2, hentry, hrun⟩ := EStateM.run_bind_eq_ok_iff.mp hrun
  obtain ⟨share, world3, hshare, hrun⟩ := EStateM.run_bind_eq_ok_iff.mp hrun
  obtain ⟨pinsLink, world4, hpins, hrun⟩ := EStateM.run_bind_eq_ok_iff.mp hrun
  obtain ⟨link, world5, hput, hdone⟩ := EStateM.run_bind_eq_ok_iff.mp hrun
  have hlast := (grows_putManifestInBlobs _).of_ok hput
  have hlater3 := ((grows_putPinsInBlobs _).of_ok hpins).trans hlast
  have hlater2 := ((grows_newSecretShare _ _).of_ok hshare).trans hlater3
  have hmanifest := getManifestFromBlobs_of_putManifestInBlobs hput
  obtain ⟨entropy, hwraps⟩ := wraps_of_newSecretShare hshare
  generalize hnew : (Manifest.sign _ _ : Manifest) = manifest at hput hmanifest hdone
  have hfields : manifest.entry = entry ∧ manifest.pins = pinsLink ∧
      manifest.opsLog = none ∧ manifest.previous = none ∧ manifest.height = 0 ∧
      manifest.public = none ∧ manifest.shares = FinMap.put KeyedMap.empty
        (P.publicKey owner).toHex (Share.newOwner share (P.publicKey owner)) := by
    rw [← hnew]
    exact ⟨rfl, rfl, rfl, rfl, rfl, rfl, rfl⟩
  obtain ⟨hmentry, hmpins, hmops, hmprevious, hmheight, hmpublic, hmshares⟩ := hfields
  have hget : ∀ searched found, manifest.shares.get? searched = some found →
      searched = (P.publicKey owner).toHex ∧
        found = Share.newOwner share (P.publicKey owner) := by
    intro searched found hfound
    rw [hmshares, FinMap.get?_put] at hfound
    split_ifs at hfound with hname
    · cases hfound
      exact ⟨hname.symm, rfl⟩
    · contradiction
  cases hdone
  refine ⟨⟨link, manifest, secret, Node.default, Pins.extend KeyedMap.empty [entry.hash],
    KeyedMap.empty⟩, ?_, ?_, rfl, rfl, hmops, hmprevious, ?_, ?_, ?_, ?_⟩
  · constructor
    · exact hmanifest
    · rw [hmentry]
      exact (hlater2.keepsBlob _).getNodeFromBlobs (getNodeFromBlobs_of_putNodeInBlobs hentry)
    · rw [hmpins]
      exact (hlast.keepsBlob _).getPinsFromBlobs (getPinsFromBlobs_of_putPinsInBlobs hpins)
    · rw [hmops]
      rfl
    · intro key found hfound hrole
      obtain ⟨hname, rfl⟩ := hget _ found hfound
      have hkey : P.publicKey key = P.publicKey owner := PublicKey.toHex_injective hname
      refine ⟨share, rfl, ?_⟩
      rw [← hkey] at hwraps
      exact SecretShare.recover_newSecretShare hwraps
    · intro found hfound
      rw [hmpublic] at hfound
      contradiction
  · rw [Version.mount, hmheight]
    rfl
  · rw [hmentry]
  · intro searched found hfound
    obtain ⟨hname, rfl⟩ := hget searched found hfound
    exact hname
  · intro item hitem howner
    obtain ⟨-, hshared⟩ := hget item.1 item.2 (FinMap.get?_eq_some_iff.mpr hitem)
    have hlength : secret.bytes.length = secretSize := by
      cases hsecret
      exact LawfulPrimitives.length_random _ _
    rw [hshared]
    exact isPoint_of_wraps hlength ⟨entropy, hwraps⟩
  · rw [Manifest.getShare, hmshares, FinMap.get?_put_self]
    rfl

end

namespace Reference

/-- A new bucket. -/
def freshMount : MountState :=
  match (init ⟨7⟩ "docs".toList alice).run emptyWorld with
  | .ok inner world => ⟨world, inner⟩
  | .error _ world => ⟨world, emptyMount.inner⟩

theorem run_init_freshMount : (init ⟨7⟩ "docs".toList alice).run emptyWorld =
    .ok freshMount.inner freshMount.world := rfl

end Reference

end JaxFs

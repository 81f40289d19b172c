import JaxFs.MountSystem

/-!
# Save, then load

In every mount that can come about, the shares are filed under the keys they are
for, and the owners have keys that a secret can be wrapped for.  A save of such a
mount succeeds, and who can load the version that it returns is decided by the
shares: every owner, every mirror once it is published, and nobody else.
-/

namespace JaxFs

section

variable [P : Primitives]

/-! ## Shares over a run -/

structure SharesOk (manifest : Manifest) : Prop where
  filed : manifest.Filed
  wrappable : Wrappable manifest

/-- A version whose shares are in order is stored under the link. -/
def StoredWithShares (world : World) (link : Link) : Prop :=
  ∃ version : Version, version.link = link ∧ version.Stored world.blobs ∧
    SharesOk version.manifest

theorem SharesOk.addShare {manifest : Manifest} (h : SharesOk manifest) {share : Share}
    (hpoint : share.role = .owner → P.isPoint share.principal.identity.bytes = true) :
    SharesOk (manifest.addShare share) := by
  refine ⟨h.filed.addShare share, ?_⟩
  intro item hitem howner
  rcases KeyedMap.mem_insert.mp hitem with rfl | ⟨hold, -⟩
  · exact hpoint howner
  · exact h.wrappable item hold howner

variable [LawfulPrimitives]

theorem sharesOk_of_save {publish : Bool} {state state' : MountState}
    (h : SharesOk state.inner.manifest) {result : Link × Link × ℕ}
    (hrun : (save publish).run state = .ok result state') :
    SharesOk state'.inner.manifest ∧ StoredWithShares state'.world state'.inner.link := by
  obtain ⟨version, hstored, hsaves, -, hinner⟩ := stored_of_save h.filed hrun
  have hshares : SharesOk version.manifest :=
    ⟨hsaves.filed, hsaves.wrappable h.filed h.wrappable⟩
  rw [hinner]
  exact ⟨hshares, version, rfl, hstored, hshares⟩

omit [LawfulPrimitives] in
/-- An operation that stays at its version keeps the shares. -/
theorem sharesOk_of_atVersion {state state' : MountState} (hat : AtVersion state state')
    (h : SharesOk state.inner.manifest) (hlink : StoredWithShares state.world state.inner.link) :
    SharesOk state'.inner.manifest ∧ StoredWithShares state'.world state'.inner.link := by
  obtain ⟨opsLog, hedited⟩ := hat
  obtain ⟨version, hversion, hstored, hshares⟩ := hlink
  rw [hedited.manifest, hedited.link]
  exact ⟨h, version, hversion, hstored.grows hedited.grows, hshares⟩

theorem sharesOk_of_addOwner {peer : PublicKey} {state : MountState}
    (h : SharesOk state.inner.manifest) (hlink : StoredWithShares state.world state.inner.link) :
    SharesOk ((addOwner peer).run state).state.inner.manifest ∧
      StoredWithShares ((addOwner peer).run state).state.world
        ((addOwner peer).run state).state.inner.link := by
  obtain ⟨version, hversion, hstored, hshares⟩ := hlink
  rcases addOwner_cases peer state with ⟨fault, world', hgrows, hrun⟩ |
    ⟨share, world', hwrap, hgrows, hrun⟩
  · rw [hrun]
    exact ⟨h, version, hversion, hstored.grows hgrows, hshares⟩
  · rw [hrun]
    refine ⟨h.addShare ?_, version, hversion, hstored.grows hgrows, hshares⟩
    intro _
    exact isPoint_of_wraps List.length_replicate (wraps_of_newSecretShare hwrap)

theorem sharesInvariant :
    SystemInvariant (fun _ _ => True) (fun state => SharesOk state.inner.manifest)
      StoredWithShares where
  mount_grows := fun _ h => h
  link_grows := by
    intro world world' link hgrows ⟨version, hversion, hstored, hshares⟩
    exact ⟨version, hversion, hstored.grows hgrows, hshares⟩
  init := by
    intro id name owner world inner world' hrun
    obtain ⟨version, hstored, rfl, -, -, -, -, -, hfiled, hwrappable, -⟩ := stored_of_init hrun
    exact ⟨⟨hfiled, hwrappable⟩, version, rfl, hstored, hfiled, hwrappable⟩
  load := by
    rintro world link secretKey inner ⟨version, rfl, hstored, hshares⟩ hload
    rw [hstored.eq_mount_of_load hload]
    exact hshares
  operate := by
    intro state action _ h hlink
    cases action with
    | add path data => exact sharesOk_of_atVersion ((records_add _ _).atVersion state) h hlink
    | rm path => exact sharesOk_of_atVersion ((records_rm _).atVersion state) h hlink
    | mkdir path => exact sharesOk_of_atVersion ((records_mkdir _).atVersion state) h hlink
    | mv source target =>
        exact sharesOk_of_atVersion ((records_mv _ _).atVersion state) h hlink
    | addOwner peer => exact sharesOk_of_addOwner h hlink
    | addMirror peer => exact ⟨h.addShare (fun hrole => by contradiction), hlink⟩
    | save publish =>
        rcases saveAction_cases publish state with ⟨fault, world', hgrows, hrun⟩ |
          ⟨result, state', hsave, hrun⟩
        · obtain ⟨version, hversion, hstored, hshares⟩ := hlink
          rw [hrun]
          exact ⟨h, version, hversion, hstored.grows hgrows, hshares⟩
        · rw [hrun]
          exact sharesOk_of_save h hsave
  mergeFrom := by
    intro state fuel incoming resolver h hlink
    rcases mergeFrom_outcome fuel incoming resolver state with hat |
      ⟨middle, result, hmiddle, hsave⟩
    · exact sharesOk_of_atVersion hat h hlink
    · exact sharesOk_of_save (sharesOk_of_atVersion hmiddle h hlink).1 hsave

/-! ## The round trip -/

/-- The loaded mount has the tree and the operations of the saved one, one version
higher. -/
structure Reopens (inner loaded : MountInner) : Prop where
  entry : loaded.entry = inner.entry
  operations : loaded.opsLog.operations = inner.opsLog.operations
  height : loaded.height = inner.height + 1

/-- What a key gets from the version under the link, by its share in the mount. -/
def LoadsByShare (inner : MountInner) (publish : Bool) (blobs : Blobs) (link : Link)
    (secretKey : SecretKey) : Prop :=
  match (inner.manifest.getShare (P.publicKey secretKey)).map Share.role with
  | none => load blobs link secretKey = .error (.error .shareNotFound)
  | some .owner => ∃ loaded, load blobs link secretKey = .ok loaded ∧ Reopens inner loaded
  | some .mirror =>
      if publish then ∃ loaded, load blobs link secretKey = .ok loaded ∧ Reopens inner loaded
      else load blobs link secretKey = .error (.error .mirrorCannotMount)

omit [LawfulPrimitives] in
theorem Version.Saves.loadsByShare {version : Version} {inner : MountInner} {publish : Bool}
    (h : version.Saves inner publish) {blobs : Blobs} (hstored : version.Stored blobs)
    (secretKey : SecretKey) : LoadsByShare inner publish blobs version.link secretKey := by
  have hreopens : Reopens inner (version.mount secretKey) :=
    ⟨h.entry, h.operations, h.height⟩
  unfold LoadsByShare
  rw [← h.roles, hstored.load_eq, hstored.getSecret, h.published]
  cases version.manifest.getShare (P.publicKey secretKey) with
  | none => rfl
  | some share =>
      rw [Option.map_some]
      dsimp only
      cases share.role with
      | owner => exact ⟨_, rfl, hreopens⟩
      | mirror =>
          cases publish with
          | false => rfl
          | true => exact ⟨_, rfl, hreopens⟩

theorem save_load (world : World) (actions : List SystemAction) (inner : MountInner)
    (hinner : inner ∈ ((MountSystem.start world).run actions).mounts) (publish : Bool) :
    ∃ link state', (save publish).run ⟨((MountSystem.start world).run actions).world, inner⟩ =
        .ok (link, inner.link, inner.height + 1) state' ∧
      ∀ secretKey, LoadsByShare inner publish state'.world.blobs link secretKey := by
  have hshares := (MountSystem.holds_run sharesInvariant world
    (alongRun_of_forall MountSystem.allows_true _ actions)).mounts inner hinner
  obtain ⟨result, state', hsave⟩ := exists_save hshares.wrappable publish
  obtain ⟨version, hstored, hsaves, rfl, -⟩ := stored_of_save hshares.filed hsave
  exact ⟨version.link, state', hsave, hsaves.loadsByShare hstored⟩

end

namespace Reference

/-- A bucket with a directory, a second owner and nobody else. -/
def sharedBucket : List SystemAction :=
  [.init ⟨7⟩ "docs".toList alice, .operate 0 (.mkdir (absPath ["a".toList])),
    .operate 0 (.addOwner (primitives.publicKey bob))]

theorem sharedBucket_save_load :
    ∃ inner ∈ ((MountSystem.start emptyWorld).run sharedBucket).mounts,
      ∃ link state', (save false).run
          ⟨((MountSystem.start emptyWorld).run sharedBucket).world, inner⟩ =
            .ok (link, inner.link, inner.height + 1) state' ∧
        ∀ secretKey, LoadsByShare inner false state'.world.blobs link secretKey := by
  have hlength : ((MountSystem.start emptyWorld).run sharedBucket).mounts.length = 1 := by
    decide +kernel
  obtain ⟨inner, hinner⟩ := List.exists_mem_of_length_pos (by rw [hlength]; exact one_pos)
  exact ⟨inner, hinner, save_load _ _ inner hinner false⟩

end Reference

end JaxFs

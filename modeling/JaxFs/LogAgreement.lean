import JaxFs.PeerSystem
import JaxFs.ReferencePrimitives

/-!
# The log and the manifests

The height of a version is kept in the mount, in its manifest and in the log, and its
predecessor in the manifest and in the log.  On every path to the log the arguments of
the append are those of the manifest, so that they agree whenever the append is
accepted, and walking back over `previous` stays in the log down to genesis.
-/

namespace JaxFs

open BucketLogProvider

/-! ## The in-memory provider -/

namespace MemoryBucketLogProvider

open MemoryBucketLogProviderInner

instance : RootedBucketLogProvider MemoryBucketLogProvider where
  append_none := by
    intro log log' id name current height published happend
    have hresult := (Prod.mk.inj happend).1
    by_contra hheight
    have herror : appendError ((log.inner.entries.get? id).getD KeyedMap.empty) current none
        height ≠ none := by
      unfold appendError
      split_ifs <;> simp
    obtain ⟨error, hsome⟩ := Option.ne_none_iff_exists'.mp herror
    rw [append_of_some hsome] at hresult
    contradiction

theorem not_logged_new (id : Uuid) (height : ℕ) (link : Link) : ¬ Logged new id height link := by
  rw [logged_iff]
  simp [linksAt, new, MemoryBucketLogProviderInner.default]

end MemoryBucketLogProvider

section

variable [P : Primitives] {σ : Type}

/-- `previous` followed this many times. -/
def ancestor (blobs : Blobs) : ℕ → Link → Option Link
  | 0, link => some link
  | steps + 1, link =>
      match getManifestFromBlobs blobs link with
      | .ok manifest => manifest.previous.bind (ancestor blobs steps)
      | .error _ => none

theorem ancestor_succ {blobs : Blobs} {link : Link} {manifest : Manifest}
    (h : getManifestFromBlobs blobs link = .ok manifest) (steps : ℕ) :
    ancestor blobs (steps + 1) link = manifest.previous.bind (ancestor blobs steps) := by
  rw [ancestor, h]

variable [BucketLogProvider σ]

/-- Every entry of the log is described by a stored manifest. -/
def Agrees (peer : PeerState σ) : Prop :=
  ∀ id height link, Logged peer.logs id height link →
    ∃ manifest, Describes peer.world.blobs peer.logs id height link manifest

section

variable {peer peer' : PeerState σ} {id : Uuid} {height : ℕ} {link : Link}
  {manifest : Manifest}

theorem Describes.mono {blobs blobs' : Blobs} {logs logs' : σ}
    (h : Describes blobs logs id height link manifest)
    (hread : getManifestFromBlobs blobs' link = .ok manifest)
    (hkept : ∀ id height link, Logged logs id height link → Logged logs' id height link) :
    Describes blobs' logs' id height link manifest := by
  refine ⟨hread, h.atHeight, h.genesis, ?_⟩
  intro previous hprevious
  obtain ⟨below, hheight, hlogged⟩ := h.below previous hprevious
  exact ⟨below, hheight, hkept _ _ _ hlogged⟩

theorem Describes.previous_eq_none_iff {blobs : Blobs} {logs : σ}
    (h : Describes blobs logs id height link manifest) :
    manifest.previous = none ↔ height = 0 := by
  constructor
  · exact h.genesis
  · intro hzero
    cases hprevious : manifest.previous with
    | none => rfl
    | some previous =>
        obtain ⟨below, hheight, -⟩ := h.below previous hprevious
        omega

/-- What extends an agreeing log agrees. -/
theorem Agrees.extends {source : Uuid → Link → Manifest → Prop} (h : Agrees peer)
    (hstep : LogExtends source peer peer') : Agrees peer' := by
  intro id height link hlogged
  rcases hstep.added id height link hlogged with hold | ⟨manifest, hdescribes, -⟩
  · obtain ⟨manifest, hdescribes⟩ := h id height link hold
    exact ⟨manifest, hdescribes.mono
      (hstep.grows.getManifestFromBlobs hdescribes.stored) hstep.kept⟩
  · exact ⟨manifest, hdescribes.mono hdescribes.stored hstep.kept⟩

/-- The walk from an entry stays in the log, one height down at each step. -/
theorem Agrees.exists_ancestor (h : Agrees peer) (hlogged : Logged peer.logs id height link)
    {steps : ℕ} (hsteps : steps ≤ height) :
    ∃ earlier, ancestor peer.world.blobs steps link = some earlier ∧
      Logged peer.logs id (height - steps) earlier := by
  induction steps generalizing height link with
  | zero => exact ⟨link, rfl, hlogged⟩
  | succ steps ih =>
      obtain ⟨manifest, hdescribes⟩ := h id height link hlogged
      rw [ancestor_succ hdescribes.stored]
      cases hprevious : manifest.previous with
      | none =>
          have hzero := hdescribes.genesis hprevious
          omega
      | some previous =>
          obtain ⟨below, rfl, hbelow⟩ := hdescribes.below previous hprevious
          rw [Nat.add_sub_add_right]
          exact ih hbelow (by omega)

theorem Agrees.ancestor_eq_none (h : Agrees peer)
    (hlogged : Logged peer.logs id height link) :
    ancestor peer.world.blobs (height + 1) link = none := by
  induction height generalizing link with
  | zero =>
      obtain ⟨manifest, hdescribes⟩ := h id 0 link hlogged
      rw [ancestor_succ hdescribes.stored, hdescribes.previous_eq_none_iff.mpr rfl]
      rfl
  | succ height ih =>
      obtain ⟨manifest, hdescribes⟩ := h id (height + 1) link hlogged
      rw [ancestor_succ hdescribes.stored]
      cases hprevious : manifest.previous with
      | none => rfl
      | some previous =>
          obtain ⟨below, hheight, hbelow⟩ := hdescribes.below previous hprevious
          cases hheight
          exact ih hbelow

end

variable [LawfulPrimitives] [LawfulBucketLogProvider σ] [RootedBucketLogProvider σ]

omit [LawfulPrimitives] [LawfulBucketLogProvider σ] [RootedBucketLogProvider σ] in
theorem agrees_start (world : World) {logs : σ}
    (hempty : ∀ id height link, ¬ Logged logs id height link) :
    Agrees (PeerSystem.start world logs).peer :=
  fun id height link hlogged => absurd hlogged (hempty id height link)

theorem agrees_run (world : World) {logs : σ}
    (hempty : ∀ id height link, ¬ Logged logs id height link) (actions : List PeerAction) :
    Agrees ((PeerSystem.start world logs).run actions).peer := by
  have hstep : ∀ (system : PeerSystem σ) action, Agrees system.peer → True →
      Agrees (system.step action).peer :=
    fun system action hagrees _ => hagrees.extends (system.logExtends_step action)
  exact @AlongRun.invariant _ _ PeerSystem.step (fun _ _ => True)
    (fun system => Agrees system.peer) hstep _ (agrees_start world hempty) actions
    (alongRun_of_forall (fun _ _ => trivial) _ actions)

/-- From a log without entries on, in every state: the manifest of an entry is stored and
has the height of the entry, it has no predecessor exactly at height 0 and otherwise one
that the log holds for the same bucket at the height below, and following `previous`
reaches genesis in exactly as many steps as the height, inside the log. -/
theorem log_agrees_with_manifests (world : World) (logs : σ)
    (hempty : ∀ id height link, ¬ Logged logs id height link) (actions : List PeerAction)
    (id : Uuid) (height : ℕ) (link : Link)
    (hlogged : Logged ((PeerSystem.start world logs).run actions).peer.logs id height link) :
    let peer := ((PeerSystem.start world logs).run actions).peer
    (∃ manifest, getManifestFromBlobs peer.world.blobs link = .ok manifest ∧
      manifest.height = height ∧ (manifest.previous = none ↔ height = 0) ∧
      ∀ previous, manifest.previous = some previous →
        Logged peer.logs id (height - 1) previous) ∧
    (∀ steps ≤ height, ∃ earlier, ancestor peer.world.blobs steps link = some earlier ∧
      Logged peer.logs id (height - steps) earlier) ∧
    ancestor peer.world.blobs (height + 1) link = none := by
  have hagrees := agrees_run world hempty actions
  refine ⟨?_, fun steps hsteps => hagrees.exists_ancestor hlogged hsteps,
    hagrees.ancestor_eq_none hlogged⟩
  obtain ⟨manifest, hdescribes⟩ := hagrees id height link hlogged
  refine ⟨manifest, hdescribes.stored, hdescribes.atHeight,
    hdescribes.previous_eq_none_iff, ?_⟩
  intro previous hprevious
  obtain ⟨below, rfl, hbelow⟩ := hdescribes.below previous hprevious
  exact hbelow

end

namespace Reference

/-- A bucket is created, mounted, changed and saved. -/
def saveActions : List PeerAction :=
  [.create aliceEnv ⟨7⟩ "docs".toList, .mount aliceEnv ⟨7⟩,
    .operate 0 (.mkdir (relPath ["a".toList])), .saveMount aliceEnv 0 false]

theorem saveActions_agree :
    let peer :=
      ((PeerSystem.start emptyWorld MemoryBucketLogProvider.new).run saveActions).peer
    ∃ link, Logged peer.logs ⟨7⟩ 1 link ∧
      (∃ manifest, getManifestFromBlobs peer.world.blobs link = .ok manifest ∧
        manifest.height = 1 ∧ (manifest.previous = none ↔ 1 = 0) ∧
        ∀ previous, manifest.previous = some previous →
          Logged peer.logs ⟨7⟩ (1 - 1) previous) ∧
      (∀ steps ≤ 1, ∃ earlier, ancestor peer.world.blobs steps link = some earlier ∧
        Logged peer.logs ⟨7⟩ (1 - steps) earlier) ∧
      ancestor peer.world.blobs (1 + 1) link = none := by
  have hlength : (((PeerSystem.start emptyWorld MemoryBucketLogProvider.new).run
      saveActions).peer.logs.inner.linksAt ⟨7⟩ 1).length = 1 := by
    decide +kernel
  have hagree := log_agrees_with_manifests emptyWorld MemoryBucketLogProvider.new
    MemoryBucketLogProvider.not_logged_new saveActions ⟨7⟩ 1
  generalize ((PeerSystem.start emptyWorld MemoryBucketLogProvider.new).run
    saveActions).peer = peer at hlength hagree ⊢
  obtain ⟨link, hlinks⟩ := List.length_eq_one_iff.mp hlength
  have hlogged : Logged peer.logs ⟨7⟩ 1 link := by
    rw [MemoryBucketLogProvider.logged_iff, hlinks]
    exact List.mem_singleton_self link
  exact ⟨link, hlogged, hagree link hlogged⟩

end Reference

end JaxFs

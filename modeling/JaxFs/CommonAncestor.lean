import JaxFs.BackwardChain
import JaxFs.MountMerge
import JaxFs.StoredVersion

/-!
# The common ancestor of two mounts

`Mount::find_common_ancestor` walks the chain of the one mount to its end and the chain of
the other up to the first link that is on both.
-/

namespace JaxFs

section

variable [P : Primitives] {blobs : Blobs} {link : Link} {chain selfChain : List Link} {fuel : ℕ}

/-- The version before a stored one. -/
def previousOf (blobs : Blobs) (link : Link) : Option (Option Link) :=
  match getManifestFromBlobs blobs link with
  | .ok manifest => some manifest.previous
  | .error _ => none

theorem previousOf_eq_some_iff {previous : Option Link} :
    previousOf blobs link = some previous ↔
      ∃ manifest, getManifestFromBlobs blobs link = .ok manifest ∧
        manifest.previous = previous := by
  unfold previousOf
  cases getManifestFromBlobs blobs link <;> simp

theorem chainLinks_of_chain (h : ChainFrom (previousOf blobs) link chain)
    (hfuel : chain.length ≤ fuel) : chainLinks blobs fuel link = .ok chain := by
  induction h generalizing fuel with
  | first hfirst =>
      obtain ⟨manifest, hmanifest, hprevious⟩ := previousOf_eq_some_iff.mp hfirst
      cases fuel with
      | zero => simp at hfuel
      | succ fuel => simp [chainLinks, hmanifest, hprevious]
  | back hback _ ih =>
      obtain ⟨manifest, hmanifest, hprevious⟩ := previousOf_eq_some_iff.mp hback
      cases fuel with
      | zero => simp at hfuel
      | succ fuel =>
          simp only [List.length_cons, Nat.add_le_add_iff_right] at hfuel
          simp [chainLinks, hmanifest, hprevious, ih hfuel]

theorem firstShared_of_chain (h : ChainFrom (previousOf blobs) link chain)
    (hfuel : chain.length ≤ fuel) :
    firstShared blobs selfChain fuel link = .ok (ChainFrom.newestShared selfChain chain) := by
  unfold ChainFrom.newestShared
  induction h generalizing fuel with
  | @first link hfirst =>
      obtain ⟨manifest, hmanifest, hprevious⟩ := previousOf_eq_some_iff.mp hfirst
      cases fuel with
      | zero => simp at hfuel
      | succ fuel =>
          by_cases hshared : link ∈ selfChain
          · simp [firstShared, hshared]
          · simp [firstShared, hshared, hmanifest, hprevious]
  | @back link _ _ hback _ ih =>
      obtain ⟨manifest, hmanifest, hprevious⟩ := previousOf_eq_some_iff.mp hback
      cases fuel with
      | zero => simp at hfuel
      | succ fuel =>
          simp only [List.length_cons, Nat.add_le_add_iff_right] at hfuel
          by_cases hshared : link ∈ selfChain
          · simp [firstShared, hshared]
          · simp [firstShared, hshared, hmanifest, hprevious, ih hfuel]

variable {inner other : MountInner} {otherChain : List Link}

theorem findCommonAncestor_of_chains (h : ChainFrom (previousOf blobs) inner.link chain)
    (hother : ChainFrom (previousOf blobs) other.link otherChain)
    (hfuel : chain.length ≤ fuel) (hotherFuel : otherChain.length ≤ fuel) :
    inner.findCommonAncestor other blobs fuel =
      .ok (ChainFrom.newestShared chain otherChain) := by
  unfold MountInner.findCommonAncestor
  simp only [chainLinks_of_chain h hfuel, firstShared_of_chain hother hotherFuel]

/-- The most recent version that is on both chains: every other one is an ancestor. -/
structure MostRecentShared (blobs : Blobs) (chain otherChain : List Link) (link : Link) :
    Prop where
  mem_chain : link ∈ chain
  mem_otherChain : link ∈ otherChain
  newest : ∀ shared ∈ chain, shared ∈ otherChain → shared ≠ link →
    Older (previousOf blobs) link shared

/-- On two finite chains the search ends, in whichever order the mounts are given, with the
most recent shared version if the chains share any. -/
theorem findCommonAncestor_exact (h : ChainFrom (previousOf blobs) inner.link chain)
    (hother : ChainFrom (previousOf blobs) other.link otherChain)
    (hfuel : max chain.length otherChain.length ≤ fuel) :
    ∃ found, inner.findCommonAncestor other blobs fuel = .ok found ∧
      other.findCommonAncestor inner blobs fuel = .ok found ∧
      (found.isSome = true ↔ ∃ link, link ∈ chain ∧ link ∈ otherChain) ∧
      ∀ link, found = some link → MostRecentShared blobs chain otherChain link := by
  have hlength : chain.length ≤ fuel := (le_max_left _ _).trans hfuel
  have hotherLength : otherChain.length ≤ fuel := (le_max_right _ _).trans hfuel
  refine ⟨ChainFrom.newestShared chain otherChain,
    findCommonAncestor_of_chains h hother hlength hotherLength, ?_,
    ChainFrom.newestShared_isSome_iff, ?_⟩
  · rw [findCommonAncestor_of_chains hother h hotherLength hlength,
      ChainFrom.newestShared_comm h hother]
  · intro link hfound
    obtain ⟨hmem, newer, older, hsplit, _⟩ := ChainFrom.newestShared_eq_some hfound
    constructor
    · exact hmem
    · simp [hsplit]
    · intro shared hshared hshared' hne
      exact ChainFrom.older_of_newestShared hother hfound hshared hshared' hne

end

namespace Reference

/-- Two mounts that load the first version, make a directory each and save it. -/
def aliceAhead : MountState :=
  ((do mkdir (absPath ["a".toList]); discard (save false) : MountM Unit).run freshMount).state

def bobAhead : MountState :=
  ((do mkdir (absPath ["b".toList]); discard (save false) : MountM Unit).run
    ⟨aliceAhead.world, freshMount.inner⟩).state

/-- They share the first version. -/
theorem first_version_shared :
    ∃ found, aliceAhead.inner.findCommonAncestor bobAhead.inner bobAhead.world.blobs 2 =
        .ok found ∧
      bobAhead.inner.findCommonAncestor aliceAhead.inner bobAhead.world.blobs 2 = .ok found ∧
      (found.isSome = true ↔
        ∃ link, link ∈ [aliceAhead.inner.link, freshMount.inner.link] ∧
          link ∈ [bobAhead.inner.link, freshMount.inner.link]) ∧
      ∀ link, found = some link →
        MostRecentShared bobAhead.world.blobs [aliceAhead.inner.link, freshMount.inner.link]
          [bobAhead.inner.link, freshMount.inner.link] link := by
  have hfacts : previousOf bobAhead.world.blobs freshMount.inner.link = some none ∧
      previousOf bobAhead.world.blobs aliceAhead.inner.link =
        some (some freshMount.inner.link) ∧
      previousOf bobAhead.world.blobs bobAhead.inner.link =
        some (some freshMount.inner.link) := by
    decide +kernel
  obtain ⟨hfirst, halice, hbob⟩ := hfacts
  exact findCommonAncestor_exact (.back halice (.first hfirst)) (.back hbob (.first hfirst))
    (by simp)

end Reference

end JaxFs

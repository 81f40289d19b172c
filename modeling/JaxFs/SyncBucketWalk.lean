import JaxFs.SyncBucket

/-!
# The chain behind a target link

A peer sees a blob locally or as offered by the peers it asks.  Downloading
changes what is stored and not what is seen, so both backward walks of a sync run
over one and the same chain of manifests.  This is stated once as `Walk`, together
with what the two loops return in its terms.
-/

namespace JaxFs

open BucketLogProvider

section

variable [P : Primitives] {σ : Type}

/-- The bytes behind a hash: the local blob, or what the peers serve for it. -/
def visibleBlob (env : PeerEnv) (peerIds : List PublicKey) (blobs : Blobs)
    (hash : Hash) : Option Bytes :=
  match blobs hash with
  | some data => some data
  | none => (env.fetch peerIds hash).filter (fun data => decide (P.hash data = hash))

def visibleManifest (env : PeerEnv) (peerIds : List PublicKey)
    (state : PeerState σ) (link : Link) : Option Manifest :=
  (visibleBlob env peerIds state.world.blobs link.hash).bind P.decodeManifest

/-- Nothing but downloads in between. -/
structure SameView (env : PeerEnv) (peerIds : List PublicKey)
    (state state' : PeerState σ) : Prop where
  logs : state'.logs = state.logs
  visible : visibleBlob env peerIds state'.world.blobs =
    visibleBlob env peerIds state.world.blobs

namespace SameView

variable {env : PeerEnv} {peerIds : List PublicKey}
  {state state' state'' : PeerState σ}

theorem refl (state : PeerState σ) : SameView env peerIds state state := ⟨rfl, rfl⟩

theorem trans (h : SameView env peerIds state state')
    (h' : SameView env peerIds state' state'') :
    SameView env peerIds state state'' :=
  ⟨h'.logs.trans h.logs, h'.visible.trans h.visible⟩

theorem visibleManifest_eq (h : SameView env peerIds state state') :
    visibleManifest env peerIds state' = visibleManifest env peerIds state := by
  funext link
  unfold visibleManifest
  rw [h.visible]

end SameView

/-! ## What the loops return -/

theorem sameView_downloadHash (env : PeerEnv) (link : Link)
    (peerIds : List PublicKey) :
    EStateM.Preserves (SameView env peerIds)
      (downloadHash env link peerIds : SyncM σ Unit) := by
  intro state
  unfold downloadHash EStateM.run
  dsimp only
  cases hlocal : state.world.blobs link.hash with
  | some data => exact SameView.refl state
  | none =>
      cases hfetch : env.fetch peerIds link.hash with
      | none => exact SameView.refl state
      | some data =>
          by_cases hhash : P.hash data = link.hash
          · simp only [if_pos hhash, EStateM.Result.state_ok]
            refine ⟨rfl, funext fun hash => ?_⟩
            unfold visibleBlob
            simp only [World.blobs_store, hhash]
            by_cases heq : hash = link.hash
            · subst heq
              simp [hlocal, hfetch, Option.filter, hhash]
            · simp [Function.update_of_ne heq]
          · simp only [if_neg hhash, EStateM.Result.state_error]
            exact SameView.refl state

theorem sameView_getManifest (env : PeerEnv) (link : Link) (peerIds : List PublicKey) :
    EStateM.Preserves (SameView env peerIds)
      (getManifest link : SyncM σ Manifest) := by
  intro state
  unfold getManifest EStateM.run
  dsimp only
  cases (state.world.blobs link.hash).bind P.decodeManifest with
  | some manifest => exact SameView.refl state
  | none => exact SameView.refl state

/-- A manifest that was read is the visible one. -/
theorem visibleManifest_of_getManifest (env : PeerEnv) (peerIds : List PublicKey)
    {link : Link} {state state' : PeerState σ} {manifest : Manifest}
    (h : (getManifest link).run state = .ok manifest state') :
    visibleManifest env peerIds state link = some manifest ∧ state' = state := by
  unfold getManifest EStateM.run at h
  dsimp only at h
  cases hread : (state.world.blobs link.hash).bind P.decodeManifest with
  | none =>
      rw [hread] at h
      contradiction
  | some found =>
      rw [hread] at h
      cases h
      obtain ⟨data, hdata, hdecode⟩ := Option.bind_eq_some_iff.mp hread
      exact ⟨by simp [visibleManifest, visibleBlob, hdata, hdecode], rfl⟩

/-- The manifests from `link` back to `stop` or to genesis, newest first. -/
inductive Walk (manifestAt : Link → Option Manifest) (stop : Option Link) :
    Link → List (Manifest × Link) → Prop where
  | stopped {link : Link} (hstop : stop = some link) : Walk manifestAt stop link []
  | genesis {link : Link} {manifest : Manifest} (hstop : stop ≠ some link)
      (hmanifest : manifestAt link = some manifest)
      (hprevious : manifest.previous = none) :
      Walk manifestAt stop link [(manifest, link)]
  | step {link previous : Link} {manifest : Manifest}
      {older : List (Manifest × Link)} (hstop : stop ≠ some link)
      (hmanifest : manifestAt link = some manifest)
      (hprevious : manifest.previous = some previous)
      (hwalk : Walk manifestAt stop previous older) :
      Walk manifestAt stop link ((manifest, link) :: older)

theorem sameView_downloadManifests (env : PeerEnv) (stop : Option Link)
    (peerIds : List PublicKey) (fuel : ℕ) (link : Link) :
    EStateM.Preserves (SameView env peerIds)
      (downloadManifests env stop peerIds fuel link :
        SyncM σ (List (Manifest × Link))) := by
  have htrans : ∀ s s' s'' : PeerState σ, SameView env peerIds s s' →
      SameView env peerIds s' s'' → SameView env peerIds s s'' :=
    fun _ _ _ h h' => h.trans h'
  induction fuel generalizing link with
  | zero => exact fun state => SameView.refl state
  | succ fuel ih =>
      unfold downloadManifests
      apply EStateM.Preserves.bind htrans (sameView_downloadHash env link peerIds)
      intro _
      apply EStateM.Preserves.bind htrans (sameView_getManifest env link peerIds)
      intro manifest
      split_ifs
      · exact EStateM.Preserves.pure SameView.refl _
      · cases manifest.previous with
        | none => exact EStateM.Preserves.pure SameView.refl _
        | some previous =>
            apply EStateM.Preserves.bind htrans (ih previous)
            intro older
            exact EStateM.Preserves.pure SameView.refl _

theorem walk_of_downloadManifests {env : PeerEnv} {stop : Option Link}
    {peerIds : List PublicKey} {fuel : ℕ} {link : Link}
    {state state' : PeerState σ} {chain : List (Manifest × Link)}
    (h : (downloadManifests env stop peerIds fuel link).run state = .ok chain state') :
    Walk (visibleManifest env peerIds state) stop link chain := by
  induction fuel generalizing link state state' chain with
  | zero => contradiction
  | succ fuel ih =>
      unfold downloadManifests at h
      obtain ⟨_, downloaded, hdownload, hrun⟩ := EStateM.run_bind_eq_ok_iff.mp h
      have hview := sameView_downloadHash env link peerIds state
      rw [hdownload, EStateM.Result.state_ok] at hview
      obtain ⟨manifest, read, hread, hrest⟩ := EStateM.run_bind_eq_ok_iff.mp hrun
      obtain ⟨hmanifest, hstate⟩ := visibleManifest_of_getManifest env peerIds hread
      rw [hview.visibleManifest_eq] at hmanifest
      rw [hstate] at hrest
      by_cases hstop : stop = some link
      · rw [if_pos hstop] at hrest
        cases hrest
        exact Walk.stopped hstop
      · rw [if_neg hstop] at hrest
        cases hprevious : manifest.previous with
        | none =>
            rw [hprevious] at hrest
            cases hrest
            exact Walk.genesis hstop hmanifest hprevious
        | some previous =>
            rw [hprevious] at hrest
            obtain ⟨older, _, holder, hdone⟩ := EStateM.run_bind_eq_ok_iff.mp hrest
            cases hdone
            have hwalk := ih holder
            rw [hview.visibleManifest_eq] at hwalk
            exact Walk.step hstop hmanifest hprevious hwalk

/-! ## Facts about walks -/

section

variable {manifestAt : Link → Option Manifest} {stop : Option Link} {link : Link}
  {chain : List (Manifest × Link)}

/-- The manifest behind `link` names `previous` as its predecessor. -/
def PreviousOf (manifestAt : Link → Option Manifest) (link previous : Link) : Prop :=
  ∃ manifest, manifestAt link = some manifest ∧ manifest.previous = some previous

/-- `ancestor` is met when walking back from `link`. -/
abbrev OnChain (manifestAt : Link → Option Manifest) : Link → Link → Prop :=
  Relation.ReflTransGen (PreviousOf manifestAt)

omit P in
theorem OnChain.previous {ancestor previous : Link} {manifest : Manifest}
    (hchain : OnChain manifestAt link ancestor) (hne : link ≠ ancestor)
    (hmanifest : manifestAt link = some manifest)
    (hprevious : manifest.previous = some previous) :
    OnChain manifestAt previous ancestor := by
  rcases Relation.ReflTransGen.cases_head hchain with heq | ⟨next, hnext, hrest⟩
  · exact absurd heq hne
  · obtain ⟨found, hfound, hfoundPrevious⟩ := hnext
    rw [hmanifest] at hfound
    cases hfound
    rw [hprevious] at hfoundPrevious
    cases hfoundPrevious
    exact hrest

omit P in
theorem OnChain.not_genesis {ancestor : Link} {manifest : Manifest}
    (hchain : OnChain manifestAt link ancestor) (hne : link ≠ ancestor)
    (hmanifest : manifestAt link = some manifest) :
    manifest.previous ≠ none := by
  intro hnone
  rcases Relation.ReflTransGen.cases_head hchain with heq | ⟨next, hnext, -⟩
  · exact hne heq
  · obtain ⟨found, hfound, hfoundPrevious⟩ := hnext
    rw [hmanifest] at hfound
    cases hfound
    rw [hnone] at hfoundPrevious
    contradiction

omit P in
theorem Walk.unique {chain' : List (Manifest × Link)}
    (h : Walk manifestAt stop link chain) (h' : Walk manifestAt stop link chain') :
    chain = chain' := by
  induction h generalizing chain' with
  | stopped hstop =>
      cases h' with
      | stopped _ => rfl
      | genesis hstop' _ _ => exact absurd hstop hstop'
      | step hstop' _ _ _ => exact absurd hstop hstop'
  | genesis hstop hmanifest hprevious =>
      cases h' with
      | stopped hstop' => exact absurd hstop' hstop
      | genesis _ hmanifest' _ =>
          rw [hmanifest] at hmanifest'
          cases hmanifest'
          rfl
      | step _ hmanifest' hprevious' _ =>
          rw [hmanifest] at hmanifest'
          cases hmanifest'
          rw [hprevious] at hprevious'
          contradiction
  | step hstop hmanifest hprevious hwalk ih =>
      cases h' with
      | stopped hstop' => exact absurd hstop' hstop
      | genesis _ hmanifest' hprevious' =>
          rw [hmanifest] at hmanifest'
          cases hmanifest'
          rw [hprevious] at hprevious'
          contradiction
      | step _ hmanifest' hprevious' hwalk' =>
          rw [hmanifest] at hmanifest'
          cases hmanifest'
          rw [hprevious] at hprevious'
          cases hprevious'
          rw [ih hwalk']

omit P in
/-- The walk from a link met on the way is the rest of the walk. -/
theorem Walk.suffix_of_mem {entry : Manifest × Link}
    (h : Walk manifestAt stop link chain) (hentry : entry ∈ chain) :
    ∃ rest, Walk manifestAt stop entry.2 rest ∧ rest <:+ chain := by
  induction h with
  | stopped _ => contradiction
  | @genesis link manifest hstop hmanifest hprevious =>
      rw [List.mem_singleton.mp hentry]
      exact ⟨_, Walk.genesis hstop hmanifest hprevious, List.suffix_refl _⟩
  | @step link previous manifest older hstop hmanifest hprevious hwalk ih =>
      rcases List.mem_cons.mp hentry with rfl | hentry
      · exact ⟨_, Walk.step hstop hmanifest hprevious hwalk, List.suffix_refl _⟩
      · obtain ⟨rest, hrest, hsuffix⟩ := ih hentry
        exact ⟨rest, hrest, hsuffix.trans (List.suffix_cons _ _)⟩

omit P in
/-- A finite walk does not come back to its first link. -/
theorem Walk.link_ne_of_mem {first entry : Manifest × Link}
    {older : List (Manifest × Link)}
    (h : Walk manifestAt stop link (first :: older)) (hentry : entry ∈ older) :
    entry.2 ≠ link := by
  intro heq
  cases h with
  | genesis _ _ _ => contradiction
  | step hstop hmanifest hprevious hwalk =>
      obtain ⟨rest, hrest, hsuffix⟩ := hwalk.suffix_of_mem hentry
      rw [heq] at hrest
      have hwhole := hrest.unique (Walk.step hstop hmanifest hprevious hwalk)
      have hlength := hsuffix.length_le
      rw [hwhole] at hlength
      simp at hlength

omit P in
theorem Walk.manifestAt_of_mem {entry : Manifest × Link}
    (h : Walk manifestAt stop link chain) (hentry : entry ∈ chain) :
    manifestAt entry.2 = some entry.1 := by
  induction h with
  | stopped _ => contradiction
  | genesis hstop hmanifest hprevious =>
      rw [List.mem_singleton.mp hentry]
      exact hmanifest
  | step hstop hmanifest hprevious hwalk ih =>
      rcases List.mem_cons.mp hentry with rfl | hentry
      · exact hmanifest
      · exact ih hentry

omit P in
theorem Walk.onChain_of_mem {entry : Manifest × Link}
    (h : Walk manifestAt stop link chain) (hentry : entry ∈ chain) :
    OnChain manifestAt link entry.2 := by
  induction h with
  | stopped _ => contradiction
  | genesis hstop hmanifest hprevious =>
      rw [List.mem_singleton.mp hentry]
  | step hstop hmanifest hprevious hwalk ih =>
      rcases List.mem_cons.mp hentry with rfl | hentry
      · exact Relation.ReflTransGen.refl
      · exact Relation.ReflTransGen.head ⟨_, hmanifest, hprevious⟩ (ih hentry)

omit P in
/-- The oldest manifest of the walk follows the stop link, or is a genesis. -/
theorem Walk.previous_of_getLast? {oldest : Manifest × Link}
    (h : Walk manifestAt stop link chain)
    (hstop : ∀ ancestor, stop = some ancestor → OnChain manifestAt link ancestor)
    (holdest : chain.getLast? = some oldest) :
    oldest.1.previous = stop := by
  induction h with
  | stopped _ => contradiction
  | @genesis link manifest hne hmanifest hprevious =>
      cases holdest
      cases stop with
      | none => exact hprevious
      | some ancestor =>
          have hchain := hstop ancestor rfl
          have hlink : link ≠ ancestor := fun heq => hne (congrArg some heq.symm)
          exact absurd hprevious (hchain.not_genesis hlink hmanifest)
  | @step link previous manifest older hne hmanifest hprevious hwalk ih =>
      have hrest : ∀ ancestor, stop = some ancestor →
          OnChain manifestAt previous ancestor := by
        intro ancestor hancestor
        have hlink : link ≠ ancestor :=
          fun heq => hne (hancestor.trans (congrArg some heq.symm))
        exact (hstop ancestor hancestor).previous hlink hmanifest hprevious
      cases holder : older with
      | nil =>
          rw [holder] at holdest hwalk
          cases holdest
          cases hwalk with
          | stopped heq => exact hprevious.trans heq.symm
      | cons second rest =>
          apply ih hrest
          rw [holder] at holdest ⊢
          rw [List.getLast?_cons_cons] at holdest
          exact holdest

end

/-! ## The common ancestor -/

section

variable [BucketLogProvider σ] {env : PeerEnv} {bucketId : Uuid}
  {peerIds : List PublicKey} {fuel : ℕ} {link : Link} {state state' : PeerState σ}

/-- A relation that the search keeps from every link is kept by the step to the
predecessor. -/
theorem preserves_previous {R : PeerState σ → PeerState σ → Prop} (hrefl : ∀ s, R s s)
    (hsearch : ∀ link, EStateM.Preserves R
      (findCommonAncestor env bucketId peerIds fuel link : SyncM σ (Option (Link × ℕ))))
    (manifest : Manifest) :
    EStateM.Preserves R
      (match manifest.previous with
        | some prevLink => findCommonAncestor env bucketId peerIds fuel prevLink
        | none => pure none : SyncM σ (Option (Link × ℕ))) := by
  cases manifest.previous with
  | none => exact EStateM.Preserves.pure hrefl _
  | some previous => exact hsearch previous

theorem sameView_findCommonAncestor (env : PeerEnv) (bucketId : Uuid)
    (peerIds : List PublicKey) (fuel : ℕ) (link : Link) :
    EStateM.Preserves (SameView env peerIds)
      (findCommonAncestor env bucketId peerIds fuel link :
        SyncM σ (Option (Link × ℕ))) := by
  have htrans : ∀ s s' s'' : PeerState σ, SameView env peerIds s s' →
      SameView env peerIds s' s'' → SameView env peerIds s s'' :=
    fun _ _ _ h h' => h.trans h'
  induction fuel generalizing link with
  | zero => exact fun state => SameView.refl state
  | succ fuel ih =>
      unfold findCommonAncestor
      apply EStateM.Preserves.bind htrans (sameView_downloadHash env link peerIds)
      intro _
      apply EStateM.Preserves.bind htrans (sameView_getManifest env link peerIds)
      intro manifest
      apply EStateM.Preserves.bind htrans (fun state => SameView.refl state)
      intro current
      have hrest := preserves_previous (R := SameView env peerIds) SameView.refl ih manifest
      cases has current.logs bucketId link with
      | error _ => exact hrest
      | ok heights =>
          cases heights with
          | nil => exact hrest
          | cons _ _ => exact EStateM.Preserves.pure SameView.refl _

/-- A version that the log lacks: the search goes on with its predecessor, if there is
one. -/
theorem previous_cases {manifest : Manifest} {middle : PeerState σ}
    {found : Option (Link × ℕ)}
    (hrest : (match manifest.previous with
      | some prevLink => findCommonAncestor env bucketId peerIds fuel prevLink
      | none => pure none : SyncM σ (Option (Link × ℕ))).run middle = .ok found state') :
    (manifest.previous = none ∧ found = none) ∨
      ∃ previous, manifest.previous = some previous ∧
        (findCommonAncestor env bucketId peerIds fuel previous).run middle =
          .ok found state' := by
  cases hprevious : manifest.previous with
  | none =>
      rw [hprevious] at hrest
      cases hrest
      exact Or.inl ⟨rfl, rfl⟩
  | some previous =>
      rw [hprevious] at hrest
      exact Or.inr ⟨previous, rfl, hrest⟩

/-- Everything one round of the search can do. -/
theorem findCommonAncestor_cases {found : Option (Link × ℕ)}
    (h : (findCommonAncestor env bucketId peerIds (fuel + 1) link).run state =
      .ok found state') :
    ∃ manifest middle, SameView env peerIds state middle ∧
      visibleManifest env peerIds state link = some manifest ∧
      ((∃ height heights, has state.logs bucketId link = .ok (height :: heights) ∧
          found = some (link, manifest.height)) ∨
        ((∀ height heights,
            has state.logs bucketId link ≠ .ok (height :: heights)) ∧
          ((manifest.previous = none ∧ found = none) ∨
            ∃ previous, manifest.previous = some previous ∧
              (findCommonAncestor env bucketId peerIds fuel previous).run middle =
                .ok found state'))) := by
  unfold findCommonAncestor at h
  obtain ⟨_, middle, hdownload, hrun⟩ := EStateM.run_bind_eq_ok_iff.mp h
  have hview := sameView_downloadHash env link peerIds state
  rw [hdownload, EStateM.Result.state_ok] at hview
  obtain ⟨manifest, read, hread, hrest⟩ := EStateM.run_bind_eq_ok_iff.mp hrun
  obtain ⟨hmanifest, hstate⟩ := visibleManifest_of_getManifest env peerIds hread
  rw [hview.visibleManifest_eq] at hmanifest
  rw [hstate] at hrest
  refine ⟨manifest, middle, hview, hmanifest, ?_⟩
  rw [EStateM.run_get_bind, hview.logs] at hrest
  cases hhas : has state.logs bucketId link with
  | error error =>
      rw [hhas] at hrest
      exact Or.inr ⟨by simp, previous_cases hrest⟩
  | ok heights =>
      rw [hhas] at hrest
      cases heights with
      | nil => exact Or.inr ⟨by simp, previous_cases hrest⟩
      | cons height heights =>
          cases hrest
          exact Or.inl ⟨height, heights, rfl, rfl⟩

/-- An ancestor that was found is on the chain. -/
theorem onChain_of_findCommonAncestor {ancestor : Link} {height : ℕ}
    (h : (findCommonAncestor env bucketId peerIds fuel link).run state =
      .ok (some (ancestor, height)) state') :
    OnChain (visibleManifest env peerIds state) link ancestor := by
  induction fuel generalizing link state with
  | zero => contradiction
  | succ fuel ih =>
      obtain ⟨manifest, middle, hview, hmanifest, hcases⟩ := findCommonAncestor_cases h
      rcases hcases with ⟨_, _, -, hfound⟩ | ⟨-, ⟨-, hfound⟩ | ⟨previous, hprevious, hrun⟩⟩
      · cases hfound
        exact Relation.ReflTransGen.refl
      · contradiction
      · have hrest := ih hrun
        rw [hview.visibleManifest_eq] at hrest
        exact Relation.ReflTransGen.head ⟨manifest, hmanifest, hprevious⟩ hrest

/-- The search stops where the walk along unlogged links does. -/
theorem findCommonAncestor_of_walk {ancestor : Link}
    {chain : List (Manifest × Link)} {found : Option (Link × ℕ)}
    (hwalk : Walk (visibleManifest env peerIds state) (some ancestor) link chain)
    (honChain : OnChain (visibleManifest env peerIds state) link ancestor)
    (hnew : ∀ entry ∈ chain, has state.logs bucketId entry.2 = .ok [])
    (hknown : ∃ height heights,
      has state.logs bucketId ancestor = .ok (height :: heights))
    (h : (findCommonAncestor env bucketId peerIds fuel link).run state =
      .ok found state') :
    ∃ height, found = some (ancestor, height) := by
  induction fuel generalizing link state chain with
  | zero => contradiction
  | succ fuel ih =>
      obtain ⟨manifest, middle, hview, hmanifest, hcases⟩ := findCommonAncestor_cases h
      cases hwalk with
      | stopped hstop =>
          cases hstop
          rcases hcases with ⟨_, _, -, hfound⟩ | ⟨hnone, -⟩
          · exact ⟨manifest.height, hfound⟩
          · obtain ⟨height, heights, hhas⟩ := hknown
            exact absurd hhas (hnone height heights)
      | genesis hstop hmanifest' hprevious =>
          have hne : link ≠ ancestor := fun heq => hstop (congrArg some heq.symm)
          exact absurd hprevious (honChain.not_genesis hne hmanifest')
      | @step _ previous manifest' older hstop hmanifest' hprevious hrest =>
          rw [hmanifest] at hmanifest'
          cases hmanifest'
          have hne : link ≠ ancestor := fun heq => hstop (congrArg some heq.symm)
          rcases hcases with ⟨_, _, hhas, -⟩ | ⟨-, ⟨hgenesis, -⟩ | ⟨next, hnext, hrun⟩⟩
          · rw [hnew _ List.mem_cons_self] at hhas
            simp at hhas
          · rw [hprevious] at hgenesis
            contradiction
          · rw [hprevious] at hnext
            cases hnext
            apply @ih previous middle older
            · rw [hview.visibleManifest_eq]
              exact hrest
            · rw [hview.visibleManifest_eq]
              exact honChain.previous hne hmanifest hprevious
            · intro entry hentry
              rw [hview.logs]
              exact hnew entry (List.mem_cons_of_mem _ hentry)
            · rw [hview.logs]
              exact hknown
            · exact hrun

end

end

end JaxFs

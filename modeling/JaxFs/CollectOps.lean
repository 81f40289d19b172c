import JaxFs.MountMerge
import JaxFs.VersionChain
import Mathlib.Data.List.TakeWhile

/-!
# The operations since a version

`collect_ops_since` walks the stored versions from the mount back to an ancestor and
joins their logs with the pending one.  Along a chain this is what was recorded
since the ancestor, as long as each log holds just the operations between its
version and the one before.  A load breaks this: it takes the stored log of its
version for pending operations.
-/

namespace JaxFs

open PathOpLog

/-- The events since the last save. -/
def pendingEvents (history : List ChainEvent) : List ChainEvent :=
  history.takeWhile (fun event => event.link?.isNone)

/-! ## Histories along a chain -/

/-- A history with a version, split at its last save. -/
theorem split_of_head_savedLinks {history : List ChainEvent} {link : Link}
    (h : (savedLinks history).head? = some link) :
    ∃ older, history = pendingEvents history ++ .saved link :: older := by
  induction history with
  | nil => simp [savedLinks] at h
  | cons event rest ih =>
      cases event with
      | recorded op =>
          rw [savedLinks_recorded] at h
          obtain ⟨older, hsplit⟩ := ih h
          refine ⟨older, ?_⟩
          unfold pendingEvents at hsplit ⊢
          rw [List.takeWhile_cons_of_pos rfl, List.cons_append, ← hsplit]
      | saved newest =>
          rw [savedLinks_saved, List.head?_cons] at h
          cases h
          exact ⟨rest, rfl⟩

theorem not_saved_mem_pendingEvents {history : List ChainEvent} {link : Link} :
    ChainEvent.saved link ∉ pendingEvents history := by
  intro hmem
  have hnone := List.mem_takeWhile_imp hmem
  simp [ChainEvent.link?] at hnone

theorem recordedOps_append (newer older : List ChainEvent) :
    recordedOps (newer ++ older) = recordedOps newer ++ recordedOps older :=
  List.filterMap_append

theorem pendingEvents_subset {history : List ChainEvent} {op : PathOperation}
    (h : op ∈ recordedOps (pendingEvents history)) : op ∈ recordedOps history := by
  obtain ⟨event, hevent, hop⟩ := List.mem_filterMap.mp h
  exact List.mem_filterMap.mpr ⟨event, List.takeWhile_subset _ hevent, hop⟩

/-- The events since a version, one save at a time. -/
theorem sinceSaved_append {history older : List ChainEvent} (ancestor : Link) {link : Link}
    (h : history = pendingEvents history ++ .saved link :: older) :
    sinceSaved ancestor history = pendingEvents history ++
      if link = ancestor then [] else .saved link :: sinceSaved ancestor older := by
  have hpending : ∀ event ∈ pendingEvents history, event ≠ .saved ancestor := by
    intro event hevent heq
    rw [heq] at hevent
    exact not_saved_mem_pendingEvents hevent
  conv_lhs => rw [h]
  unfold sinceSaved
  rw [List.takeWhile_append_of_pos (fun event hevent => by simpa using hpending event hevent)]
  by_cases heq : link = ancestor
  · simp [heq]
  · rw [if_neg heq, List.takeWhile_cons_of_pos (by simpa using heq)]

theorem head_savedLinks_of_mem {history : List ChainEvent} {link : Link}
    (h : ChainEvent.saved link ∈ history) : ∃ newest, (savedLinks history).head? = some newest := by
  have hmem : link ∈ savedLinks history := List.mem_filterMap.mpr ⟨_, h, rfl⟩
  cases hlinks : savedLinks history with
  | nil =>
      rw [hlinks] at hmem
      contradiction
  | cons newest rest => exact ⟨newest, rfl⟩

section

variable [P : Primitives]

/-! ## The walk -/

/-- The log that the walk reads at a version. -/
theorem persistedLogs_of_stored {version : Version} {blobs : Blobs}
    (h : version.Stored blobs) :
    ∃ logs, persistedLogs blobs version.manifest version.secret = .ok logs ∧
      ∀ op, (∃ log ∈ logs, op ∈ log) ↔ op ∈ version.operations := by
  have hread := h.readOps
  unfold loadOpsLog at hread
  unfold persistedLogs
  cases hops : version.manifest.opsLog with
  | none =>
      rw [hops] at hread
      have hempty : version.operations = KeyedMap.empty :=
        (congrArg PathOpLog.operations (Except.ok.inj hread)).symm
      refine ⟨[], rfl, ?_⟩
      rw [hempty]
      simp
  | some link =>
      rw [hops] at hread
      dsimp only at hread ⊢
      cases hlog : getOpsLogFromBlobs blobs link version.secret with
      | error fault =>
          rw [hlog] at hread
          contradiction
      | ok log =>
          rw [hlog] at hread
          have hoperations : log.operations = version.operations :=
            congrArg PathOpLog.operations (Except.ok.inj hread)
          refine ⟨[log.rebuildClock], rfl, ?_⟩
          intro op
          rw [← hoperations]
          simp [PathOpLog.mem_iff, PathOpLog.rebuildClock]

/-- The key belongs to an owner in the version under the link. -/
def OwnsVersion (blobs : Blobs) (secretKey : SecretKey) (link : Link) : Prop :=
  ∃ manifest share, getManifestFromBlobs blobs link = .ok manifest ∧
    manifest.getShare (P.publicKey secretKey) = some share ∧ share.role = .owner

theorem Version.Stored.getSecret_of_owner {version : Version} {blobs : Blobs}
    (h : version.Stored blobs) {secretKey : SecretKey}
    (howner : OwnsVersion blobs secretKey version.link) :
    getSecretForManifest version.manifest secretKey = .ok version.secret := by
  obtain ⟨manifest, share, hmanifest, hshare, hrole⟩ := howner
  rw [h.readManifest] at hmanifest
  cases hmanifest
  rw [h.getSecret, hshare]
  simp [hrole]

/-- The operations since the last save and those that the walk reads. -/
theorem collectLogs_of_versions {versionOk : List ChainEvent → Version → Prop}
    {blobs : Blobs} {secretKey : SecretKey} {ancestor : Link}
    (hremembers : ∀ older version, versionOk older version →
      ((recordedOps older).map PathOperation.id).Nodup →
      ∀ op, op ∈ version.operations ↔ op ∈ recordedOps (pendingEvents older))
    (fuel : ℕ) {history : List ChainEvent} {link : Link} (hfuel : history.length ≤ fuel)
    (hversions : ∀ newer link older, history = newer ++ .saved link :: older →
      VersionAt versionOk blobs link older)
    (hids : ((recordedOps history).map PathOperation.id).Nodup)
    (hlink : (savedLinks history).head? = some link)
    (hancestor : .saved ancestor ∈ history)
    (howner : ∀ newer, .saved newer ∈ sinceSaved ancestor history →
      OwnsVersion blobs secretKey newer) :
    ∃ logs, collectLogs blobs secretKey (some ancestor) fuel link = .ok logs ∧
      ∀ op, op ∈ recordedOps (pendingEvents history) ∨ (∃ log ∈ logs, op ∈ log) ↔
        op ∈ recordedOps (sinceSaved ancestor history) := by
  induction fuel generalizing history link with
  | zero =>
      have hempty : history = [] := List.length_eq_zero_iff.mp (Nat.le_zero.mp hfuel)
      rw [hempty] at hancestor
      contradiction
  | succ fuel ih =>
      obtain ⟨older, hsplit⟩ := split_of_head_savedLinks hlink
      have hsince := sinceSaved_append ancestor hsplit
      rw [collectLogs]
      by_cases heq : link = ancestor
      · rw [if_pos heq, List.append_nil] at hsince
        rw [if_pos (congrArg some heq.symm), hsince]
        exact ⟨[], rfl, by simp⟩
      · rw [if_neg heq] at hsince
        obtain ⟨version, rfl, hstored, -, hprevious, hok⟩ := hversions _ link older hsplit
        have hmem : ChainEvent.saved ancestor ∈ older := by
          rw [hsplit] at hancestor
          rcases List.mem_append.mp hancestor with hpending | hrest
          · exact absurd hpending not_saved_mem_pendingEvents
          · rcases List.mem_cons.mp hrest with hhead | holder
            · exact absurd (ChainEvent.saved.inj hhead).symm heq
            · exact holder
        have hidsOlder : ((recordedOps older).map PathOperation.id).Nodup := by
          rw [hsplit, recordedOps_append, recordedOps_saved, List.map_append] at hids
          exact (List.nodup_append.mp hids).2.1
        have hfuelOlder : older.length ≤ fuel := by
          rw [hsplit, List.length_append, List.length_cons] at hfuel
          omega
        have hversionsOlder : ∀ newer link rest, older = newer ++ .saved link :: rest →
            VersionAt versionOk blobs link rest := by
          intro newer other rest hrest
          apply hversions (pendingEvents history ++ .saved version.link :: newer) other rest
          rw [List.append_assoc, List.cons_append, ← hrest]
          exact hsplit
        have howns : OwnsVersion blobs secretKey version.link := by
          apply howner
          rw [hsince]
          exact List.mem_append_right _ List.mem_cons_self
        obtain ⟨prev, hprev⟩ := head_savedLinks_of_mem hmem
        obtain ⟨oldLogs, hwalk, holdOps⟩ := ih hfuelOlder hversionsOlder hidsOlder hprev hmem
          (fun newer hnewer => howner newer (by
            rw [hsince]
            exact List.mem_append_right _ (List.mem_cons_of_mem _ hnewer)))
        obtain ⟨logs, hlogs, hops⟩ := persistedLogs_of_stored hstored
        refine ⟨logs ++ oldLogs, ?_, ?_⟩
        · rw [if_neg (fun h => heq (Option.some.inj h).symm), hstored.readManifest]
          dsimp only
          rw [hstored.getSecret_of_owner howns]
          dsimp only
          rw [hlogs, hprevious, hprev]
          dsimp only
          rw [hwalk]
        · intro op
          rw [hsince, recordedOps_append, recordedOps_saved, List.mem_append, ← holdOps op,
            ← hremembers older version hok hidsOlder op, ← hops op]
          simp only [List.mem_append, or_and_right, exists_or]

/-- What a walk has read when it stops: nothing, or the logs of its version, and then those
of the walk from the version before. -/
theorem collectLogs_cases {version : Version} {blobs : Blobs} {secretKey : SecretKey}
    {ancestor : Option Link} {fuel : ℕ} {logs : List PathOpLog} (hstored : version.Stored blobs)
    (hwalk : collectLogs blobs secretKey ancestor (fuel + 1) version.link = .ok logs) :
    logs = [] ∨ ∃ stored, (∀ op, (∃ log ∈ stored, op ∈ log) ↔ op ∈ version.operations) ∧
      (logs = stored ∨ ∃ prev rest, version.manifest.previous = some prev ∧
        collectLogs blobs secretKey ancestor fuel prev = .ok rest ∧ logs = stored ++ rest) := by
  rw [collectLogs, hstored.readManifest] at hwalk
  split_ifs at hwalk with hreached
  · cases hwalk
    exact Or.inl rfl
  · dsimp only at hwalk
    cases hsecret : getSecretForManifest version.manifest secretKey with
    | error fault =>
        rw [hsecret] at hwalk
        split at hwalk
        · cases hwalk
          exact Or.inl rfl
        · contradiction
        · contradiction
    | ok secret =>
        obtain ⟨stored, hread, hops⟩ := persistedLogs_of_stored hstored
        rw [hsecret, hstored.secret_eq hsecret] at hwalk
        dsimp only at hwalk
        rw [hread] at hwalk
        dsimp only at hwalk
        refine Or.inr ⟨stored, hops, ?_⟩
        cases hprevious : version.manifest.previous with
        | none =>
            rw [hprevious] at hwalk
            cases hwalk
            exact Or.inl rfl
        | some prev =>
            rw [hprevious] at hwalk
            dsimp only at hwalk
            cases hrest : collectLogs blobs secretKey ancestor fuel prev with
            | error fault =>
                rw [hrest] at hwalk
                contradiction
            | ok rest =>
                rw [hrest] at hwalk
                cases hwalk
                exact Or.inr ⟨prev, rest, rfl, hrest, rfl⟩

/-- Whatever the walk reads was recorded on the chain. -/
theorem mem_of_collectLogs {versionOk : List ChainEvent → Version → Prop}
    {blobs : Blobs} {secretKey : SecretKey} {ancestor : Option Link}
    (hsubset : ∀ older version, versionOk older version →
      ∀ op ∈ version.operations, op ∈ recordedOps older)
    (fuel : ℕ) {history : List ChainEvent} {link : Link}
    (hversions : ∀ newer link older, history = newer ++ .saved link :: older →
      VersionAt versionOk blobs link older)
    (hlink : (savedLinks history).head? = some link) {logs : List PathOpLog}
    (hwalk : collectLogs blobs secretKey ancestor fuel link = .ok logs) :
    ∀ log ∈ logs, ∀ op ∈ log, op ∈ recordedOps history := by
  induction fuel generalizing history link logs with
  | zero => contradiction
  | succ fuel ih =>
      obtain ⟨older, hsplit⟩ := split_of_head_savedLinks hlink
      obtain ⟨version, rfl, hstored, -, hprevious, hok⟩ := hversions _ link older hsplit
      have holder : ∀ op ∈ recordedOps older, op ∈ recordedOps history := by
        intro op hop
        rw [hsplit, recordedOps_append, recordedOps_saved]
        exact List.mem_append_right _ hop
      have hversionsOlder : ∀ newer link rest, older = newer ++ .saved link :: rest →
          VersionAt versionOk blobs link rest := by
        intro newer other rest hrest
        apply hversions (pendingEvents history ++ .saved version.link :: newer) other rest
        rw [List.append_assoc, List.cons_append, ← hrest]
        exact hsplit
      rcases collectLogs_cases hstored hwalk with rfl | ⟨stored, hops, hlogs⟩
      · simp
      · have hhere : ∀ log ∈ stored, ∀ op ∈ log, op ∈ recordedOps history :=
          fun log hlog op hop => holder op
            (hsubset older version hok op ((hops op).mp ⟨log, hlog, hop⟩))
        rcases hlogs with rfl | ⟨prev, rest, hprev, hrest, rfl⟩
        · exact hhere
        · rw [hprevious] at hprev
          intro log hlog op hop
          rcases List.mem_append.mp hlog with hstoredLog | hrestLog
          · exact hhere log hstoredLog op hop
          · exact holder op (ih hversionsOlder hprev hrest log hrestLog op hop)

/-! ## What is collected -/

omit P in
/-- Logs of operations that their ids tell apart are joined without loss. -/
theorem mem_foldl_merge {ops : List PathOperation}
    (hids : (ops.map PathOperation.id).Nodup) {logs : List PathOpLog} {merged : PathOpLog}
    (hlogs : ∀ log ∈ logs, ∀ op ∈ log, op ∈ ops) (hmerged : ∀ op ∈ merged, op ∈ ops)
    {x : PathOperation} :
    x ∈ logs.foldl (fun merged log => (merged.merge log).1) merged ↔
      x ∈ merged ∨ ∃ log ∈ logs, x ∈ log := by
  induction logs generalizing merged with
  | nil => simp
  | cons first rest ih =>
      have hfirst := hlogs first List.mem_cons_self
      have hagree : Agree merged first := fun op hop op' hop' =>
        List.inj_on_of_nodup_map hids (hmerged op hop) (hfirst op' hop')
      have hjoin : ∀ op, op ∈ (merged.merge first).1 ↔ op ∈ merged ∨ op ∈ first :=
        fun _ => mem_merge_of_agree hagree
      have hstep : ∀ op ∈ (merged.merge first).1, op ∈ ops := by
        intro op hop
        rcases (hjoin op).mp hop with hold | hnew
        · exact hmerged op hold
        · exact hfirst op hnew
      rw [List.foldl_cons, ih (fun log hlog => hlogs log (List.mem_cons_of_mem _ hlog)) hstep,
        hjoin]
      simp only [List.mem_cons, exists_eq_or_imp, or_assoc]

omit P in
theorem mem_pendingLogs {opsLog : PathOpLog} {op : PathOperation} :
    (∃ log ∈ (if opsLog.isEmpty then [] else [opsLog]), op ∈ log) ↔ op ∈ opsLog := by
  split_ifs with hempty
  · have hoperations : opsLog.operations = KeyedMap.empty := KeyedMap.isEmpty_iff.mp hempty
    rw [mem_iff, hoperations]
    simp
  · simp

/-- What a mount collects from the logs that its walk has read. -/
theorem mem_collectOpsSince {inner : MountInner} {blobs : Blobs} {fuel : ℕ}
    {ancestor : Option Link} {logs : List PathOpLog}
    (hwalk : collectLogs blobs inner.secretKey ancestor fuel inner.link = .ok logs)
    {ops : List PathOperation} (hids : (ops.map PathOperation.id).Nodup)
    (hpending : ∀ op ∈ inner.opsLog, op ∈ ops) (hlogs : ∀ log ∈ logs, ∀ op ∈ log, op ∈ ops) :
    ∃ log, inner.collectOpsSince blobs fuel ancestor = .ok log ∧
      ∀ op, op ∈ log ↔ op ∈ inner.opsLog ∨ ∃ log ∈ logs, op ∈ log := by
  unfold MountInner.collectOpsSince
  rw [hwalk]
  refine ⟨_, rfl, ?_⟩
  intro op
  rw [mem_foldl_merge hids ?_ (by simp)]
  · simp only [not_mem_new, false_or, List.mem_reverse, List.mem_append, or_and_right,
      exists_or, mem_pendingLogs]
  · intro log hlog found hfound
    rcases List.mem_append.mp (List.mem_reverse.mp hlog) with hpendingLog | hstored
    · exact hpending found (mem_pendingLogs.mp ⟨log, hpendingLog, hfound⟩)
    · exact hlogs log hstored found hfound

/-! ## Chains without reloaded operations -/

/-- A load is of a version without an operation log. -/
def LoadsWithoutOps (chain : VersionChain) : ChainAction → Prop
  | .load link _ => ∀ manifest,
      getManifestFromBlobs chain.state.world.blobs link = .ok manifest →
      manifest.opsLog = none
  | _ => True

/-- The operations are those of the events, if their ids tell them apart. -/
def Remembers (history : List ChainEvent) (operations : KeyedMap PathOperation.id) : Prop :=
  ((recordedOps history).map PathOperation.id).Nodup →
    ∀ op, op ∈ operations ↔ op ∈ recordedOps (pendingEvents history)

theorem remembersRules :
    ChainRules LoadsWithoutOps (fun history log => Remembers history log.operations)
      (fun history version => Remembers history version.operations) where
  init := by
    intro link _ op
    simp [pendingEvents, recordedOps, ChainEvent.link?, PathOpLog.new]
  genesis := by
    intro version hempty _ _ op
    rw [hempty]
    simp [pendingEvents, recordedOps]
  record := by
    intro chain action op log _ _ happends hpending hids x
    rw [recordedOps_recorded, List.map_cons, List.nodup_cons] at hids
    have hold := hpending hids.2
    have hnew : pendingEvents (.recorded op :: chain.history) =
        .recorded op :: pendingEvents chain.history := rfl
    rw [happends.log, hnew, recordedOps_recorded, List.mem_cons, KeyedMap.mem_insert, hold]
    constructor
    · intro hcases
      rcases hcases with heq | ⟨hmem, -⟩
      · exact Or.inl heq
      · exact Or.inr hmem
    · intro hcases
      rcases hcases with heq | hmem
      · exact Or.inl heq
      · refine Or.inr ⟨hmem, ?_⟩
        intro hid
        exact hids.1 (List.mem_map.mpr ⟨x, pendingEvents_subset hmem, hid⟩)
  save := by
    intro history log link _ _ op
    simp [pendingEvents, recordedOps, ChainEvent.link?, PathOpLog.clearPreservingClock]
  version := by
    intro history log version hpending hoperations _
    rw [hoperations]
    exact hpending
  load := by
    intro chain secretKey older version hallowed _ hstored _ _ op
    have hnone := hallowed version.manifest hstored.readManifest
    have hread := hstored.readOps
    rw [hnone] at hread
    have hempty : version.operations = KeyedMap.empty :=
      (congrArg PathOpLog.operations (Except.ok.inj hread)).symm
    rw [PathOpLog.rebuildClock, hempty]
    simp [pendingEvents, recordedOps, ChainEvent.link?]

variable [LawfulPrimitives]

/-- In a run without loads of persisted operations, an owner collects exactly what was
recorded since the ancestor. -/
theorem collectOpsSince_exact {id : Uuid} {name : Name} {owner : SecretKey}
    {world : World} {state : MountState}
    (hinit : (init id name owner).run world = .ok state.inner state.world)
    (actions : List ChainAction)
    (hloads : AlongRun VersionChain.step LoadsWithoutOps (VersionChain.start state) actions)
    (chain : VersionChain) (hchain : chain = (VersionChain.start state).run actions)
    (hids : ((recordedOps chain.history).map PathOperation.id).Nodup)
    (ancestor : Link) (hancestor : .saved ancestor ∈ chain.history)
    (howner : ∀ link, .saved link ∈ sinceSaved ancestor chain.history →
      OwnsVersion chain.state.world.blobs chain.state.inner.secretKey link)
    (fuel : ℕ) (hfuel : chain.history.length ≤ fuel) :
    ∃ log, chain.state.inner.collectOpsSince chain.state.world.blobs fuel (some ancestor) =
        .ok log ∧
      ∀ op, op ∈ log ↔ op ∈ recordedOps (sinceSaved ancestor chain.history) := by
  have hsound := VersionChain.sound_run remembersRules hinit hloads
  rw [← hchain] at hsound
  obtain ⟨logs, hwalk, hops⟩ := collectLogs_of_versions (fun _ _ h => h) fuel hfuel
    hsound.versions hids hsound.link hancestor howner
  have hpending := hsound.pending hids
  have hsubset : ∀ op ∈ recordedOps (sinceSaved ancestor chain.history),
      op ∈ recordedOps chain.history := by
    intro op hop
    obtain ⟨event, hevent, hevent'⟩ := List.mem_filterMap.mp hop
    exact List.mem_filterMap.mpr ⟨event, List.takeWhile_subset _ hevent, hevent'⟩
  obtain ⟨log, hcollect, hmem⟩ := mem_collectOpsSince hwalk hids
    (fun op hop => hsubset op ((hops op).mp (Or.inl ((hpending op).mp hop))))
    (fun stored hstored op hop => hsubset op ((hops op).mp (Or.inr ⟨stored, hstored, hop⟩)))
  refine ⟨log, hcollect, ?_⟩
  intro op
  rw [hmem, ← hops, ← hpending]
  rfl

end

namespace Reference

/-- The saved directory, loaded again. -/
def reloadedDirectory : VersionChain :=
  savedDirectory.step (.load savedDirectory.state.inner.link alice)

set_option maxRecDepth 100000 in
/-- After the load, the saved operation counts as one since the save. -/
theorem reloadedDirectory_collects_saved :
    ((recordedOps reloadedDirectory.history).map PathOperation.id).Nodup ∧
    .saved savedDirectory.state.inner.link ∈ reloadedDirectory.history ∧
    sinceSaved savedDirectory.state.inner.link reloadedDirectory.history = [] ∧
    ¬ ∃ log, reloadedDirectory.state.inner.collectOpsSince
        reloadedDirectory.state.world.blobs 3 (some savedDirectory.state.inner.link) =
          .ok log ∧
      ∀ op, op ∈ log ↔ op ∈ recordedOps
        (sinceSaved savedDirectory.state.inner.link reloadedDirectory.history) := by
  have hfacts : ((recordedOps reloadedDirectory.history).map PathOperation.id).Nodup ∧
      ChainEvent.saved savedDirectory.state.inner.link ∈ reloadedDirectory.history ∧
      sinceSaved savedDirectory.state.inner.link reloadedDirectory.history = [] ∧
      (reloadedDirectory.state.inner.collectOpsSince reloadedDirectory.state.world.blobs 3
        (some savedDirectory.state.inner.link)).toOption.map PathOpLog.isEmpty =
          some false := by
    decide +kernel
  obtain ⟨hids, hsaved, hsince, hcollect⟩ := hfacts
  refine ⟨hids, hsaved, hsince, ?_⟩
  intro ⟨log, hlog, hops⟩
  rw [hlog] at hcollect
  rw [hsince] at hops
  have hempty : log.operations = KeyedMap.empty := by
    apply KeyedMap.ext_mem
    intro op
    rw [← PathOpLog.mem_iff, hops op]
    simp [recordedOps]
  have hisEmpty : log.isEmpty = true := KeyedMap.isEmpty_iff.mpr hempty
  simp [Except.toOption, hisEmpty] at hcollect

/-- A second directory after the save. -/
def twoDirectories : List ChainAction :=
  [.operate (.mkdir (absPath ["a".toList])), .operate (.save false),
    .operate (.mkdir (absPath ["b".toList]))]

theorem twoDirectories_collects :
    ∃ log, ((VersionChain.start freshMount).run twoDirectories).state.inner.collectOpsSince
        ((VersionChain.start freshMount).run twoDirectories).state.world.blobs 4
        (some savedDirectory.state.inner.link) = .ok log ∧
      ∀ op, op ∈ log ↔ op ∈ recordedOps (sinceSaved savedDirectory.state.inner.link
        ((VersionChain.start freshMount).run twoDirectories).history) := by
  have hfacts : ChainEvent.saved savedDirectory.state.inner.link ∈
        ((VersionChain.start freshMount).run twoDirectories).history ∧
      savedLinks (sinceSaved savedDirectory.state.inner.link
        ((VersionChain.start freshMount).run twoDirectories).history) = [] ∧
      ((recordedOps ((VersionChain.start freshMount).run
        twoDirectories).history).map PathOperation.id).Nodup ∧
      ((VersionChain.start freshMount).run twoDirectories).history.length ≤ 4 := by
    decide +kernel
  obtain ⟨hsaved, hsince, hids, hfuel⟩ := hfacts
  have hloads : AlongRun VersionChain.step LoadsWithoutOps (VersionChain.start freshMount)
      twoDirectories := ⟨trivial, trivial, trivial, trivial⟩
  generalize hchain : (VersionChain.start freshMount).run twoDirectories = chain at *
  refine collectOpsSince_exact run_init_freshMount twoDirectories hloads chain hchain.symm hids
    _ hsaved ?_ 4 hfuel
  intro link hlink
  have hmem : link ∈ savedLinks (sinceSaved savedDirectory.state.inner.link chain.history) :=
    List.mem_filterMap.mpr ⟨_, hlink, rfl⟩
  rw [hsince] at hmem
  exact absurd hmem List.not_mem_nil

end Reference

end JaxFs

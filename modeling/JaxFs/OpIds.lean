import JaxFs.CollectOps
import JaxFs.Folds

/-!
# Operation ids along a chain

The clock of a mount counts the operations of its chain, so that each gets the next
number.  It is not stored: a load takes the greatest number in the log of its
version.  That log has the newest operation whenever it has any, and the count
survives; a version that was saved without pending operations has no log, and the
load begins to count anew.
-/

namespace JaxFs

open PathOpLog

/-! ## Numbered operations -/

/-- The operations, newest first, carry the numbers from their count down to one. -/
def Numbered : List PathOperation → Prop
  | [] => True
  | op :: rest => op.id.timestamp = rest.length + 1 ∧ Numbered rest

theorem Numbered.le {ops : List PathOperation} (h : Numbered ops) {op : PathOperation}
    (hop : op ∈ ops) : op.id.timestamp ≤ ops.length := by
  induction ops with
  | nil => contradiction
  | cons first rest ih =>
      rw [List.length_cons]
      rcases List.mem_cons.mp hop with rfl | hrest
      · exact h.1.le
      · have hle := ih h.2 hrest
        omega

theorem Numbered.nodup {ops : List PathOperation} (h : Numbered ops) :
    (ops.map PathOperation.id).Nodup := by
  induction ops with
  | nil => exact List.nodup_nil
  | cons first rest ih =>
      rw [List.map_cons, List.nodup_cons]
      refine ⟨?_, ih h.2⟩
      intro hmem
      obtain ⟨op, hop, hid⟩ := List.mem_map.mp hmem
      have hle := h.2.le hop
      rw [hid, h.1] at hle
      omega

/-- The log has nothing but operations of the history, and the newest one if any. -/
structure HasNewest (ops : List PathOperation) (operations : KeyedMap PathOperation.id) :
    Prop where
  subset : ∀ op ∈ operations, op ∈ ops
  newest : operations = KeyedMap.empty ∨ ∃ op rest, ops = op :: rest ∧ op ∈ operations

/-- A log with the newest operation gives back the count. -/
theorem HasNewest.localClock_rebuildClock {ops : List PathOperation}
    {operations : KeyedMap PathOperation.id} (h : HasNewest ops operations)
    (hnumbered : Numbered ops) (hsome : operations = KeyedMap.empty → ops = []) :
    (rebuildClock ⟨operations, 0⟩).localClock = ops.length := by
  have hle : ∀ value ∈ operations.toList.map (fun op => op.id.timestamp),
      value ≤ ops.length := by
    intro value hvalue
    obtain ⟨op, hop, rfl⟩ := List.mem_map.mp hvalue
    exact hnumbered.le (h.subset op hop)
  apply le_antisymm (foldl_max_le (Nat.zero_le _) hle)
  apply le_foldl_max
  rcases h.newest with hempty | ⟨op, rest, rfl, hop⟩
  · rw [hsome hempty]
    exact Or.inr le_rfl
  · exact Or.inl (List.mem_map.mpr ⟨op, hop, hnumbered.1⟩)

section

variable [P : Primitives]

/-! ## Chains that keep their count -/

/-- A load is of a version with an operation log, or of one before the first operation. -/
def LoadsWithOps (chain : VersionChain) : ChainAction → Prop
  | .load link _ =>
      (∃ manifest opsLink,
        getManifestFromBlobs chain.state.world.blobs link = .ok manifest ∧
        manifest.opsLog = some opsLink) ∨
      recordedOps (upToSaved link chain.history) = []
  | _ => True

/-- The next operation of the chain still has a number. -/
def CountFits (chain : VersionChain) : ChainAction → Prop
  | .operate action => action.edits = true → (recordedOps chain.history).length + 1 < 2 ^ 64
  | _ => True

theorem countRules :
    ChainRules (fun chain action => LoadsWithOps chain action ∧ CountFits chain action)
      (fun history log => Numbered (recordedOps history) ∧
        log.localClock = (recordedOps history).length ∧
        HasNewest (recordedOps history) log.operations)
      (fun history version => Numbered (recordedOps history) ∧
        HasNewest (recordedOps history) version.operations ∧
        (version.operations = KeyedMap.empty → version.manifest.opsLog = none)) where
  init := fun _ => ⟨trivial, rfl, by simp [PathOpLog.new], Or.inl rfl⟩
  genesis := by
    intro version hempty hnone
    exact ⟨trivial, ⟨by simp [hempty], Or.inl hempty⟩, fun _ => hnone⟩
  record := by
    rintro chain action op log ⟨-, hfits⟩ hedits happends ⟨hnumbered, hclock, hnewest⟩
    have hnext : u64Succ chain.state.inner.opsLog.localClock =
        (recordedOps chain.history).length + 1 := by
      rw [hclock, u64Succ_of_lt (hfits hedits)]
    rw [recordedOps_recorded, List.length_cons, happends.log]
    refine ⟨⟨?_, hnumbered⟩, hnext, ?_, ?_⟩
    · rw [happends.id, hnext]
    · intro x hx
      rcases KeyedMap.mem_insert.mp hx with rfl | ⟨hold, -⟩
      · exact List.mem_cons_self
      · exact List.mem_cons_of_mem _ (hnewest.subset x hold)
    · exact Or.inr ⟨op, _, rfl, KeyedMap.mem_insert.mpr (Or.inl rfl)⟩
  save := by
    rintro history log link ⟨hnumbered, hclock, -⟩
    exact ⟨hnumbered, hclock, by simp [PathOpLog.clearPreservingClock], Or.inl rfl⟩
  version := by
    rintro history log version ⟨hnumbered, -, hnewest⟩ hoperations hnoOps
    rw [hoperations]
    exact ⟨hnumbered, hnewest, fun hempty => hnoOps (KeyedMap.isEmpty_iff.mpr hempty)⟩
  load := by
    rintro chain secretKey older version ⟨hloads, -⟩ hup hstored ⟨hnumbered, hnewest, hnone⟩
    have hcount : version.operations = KeyedMap.empty → recordedOps older = [] := by
      intro hempty
      rcases hloads with ⟨manifest, opsLink, hmanifest, hopsLink⟩ | hbefore
      · rw [hstored.readManifest] at hmanifest
        cases hmanifest
        rw [hnone hempty] at hopsLink
        contradiction
      · rw [hup, recordedOps_saved] at hbefore
        exact hbefore
    exact ⟨hnumbered, hnewest.localClock_rebuildClock hnumbered hcount, hnewest⟩

/-! ## Runs -/

def ChainAction.edits : ChainAction → Bool
  | .operate action => action.edits
  | _ => false

omit P in
theorem length_recordedOps_newEvents (action : MountAction) (inner : MountInner) :
    (recordedOps (newEvents action inner)).length ≤ if action.edits then 1 else 0 := by
  have hlast : (recordedOps ((inner.opsLog.operations.find? ⟨inner.opsLog.localClock,
      inner.peerId⟩).toList.map ChainEvent.recorded)).length ≤ 1 := by
    cases inner.opsLog.operations.find? ⟨inner.opsLog.localClock, inner.peerId⟩ <;>
      simp [recordedOps, ChainEvent.op?]
  cases action <;> simp [newEvents, MountAction.edits, recordedOps, ChainEvent.op?] at hlast ⊢
  all_goals exact hlast

/-- Only the operations on paths make the history longer. -/
theorem VersionChain.length_recordedOps_step (chain : VersionChain) (action : ChainAction) :
    (recordedOps (chain.step action).history).length ≤
      (recordedOps chain.history).length + if action.edits then 1 else 0 := by
  cases action with
  | operate action =>
      rw [VersionChain.step]
      cases action.run.run chain.state with
      | error fault state' => exact Nat.le_add_right _ _
      | ok _ state' =>
          have hnew := length_recordedOps_newEvents action state'.inner
          rw [recordedOps_append, List.length_append, Nat.add_comm]
          exact Nat.add_le_add_left hnew _
  | load link secretKey =>
      have hsuffix : (upToSaved link chain.history).Sublist chain.history :=
        List.dropWhile_sublist _
      have hlength := (hsuffix.filterMap ChainEvent.op?).length_le
      rw [VersionChain.step]
      by_cases hsaved : ChainEvent.saved link ∈ chain.history
      · rw [if_pos hsaved]
        cases JaxFs.load chain.state.world.blobs link secretKey with
        | error fault => exact Nat.le_add_right _ _
        | ok inner => exact hlength.trans (Nat.le_add_right _ _)
      · rw [if_neg hsaved]
        exact Nat.le_add_right _ _
  | elsewhere data => exact Nat.le_add_right _ _

/-- Fewer than 2^64 operations fit into the count. -/
theorem alongRun_countFits {chain : VersionChain} {actions : List ChainAction}
    (hfew : (recordedOps chain.history).length + actions.countP ChainAction.edits < 2 ^ 64)
    (hloads : AlongRun VersionChain.step LoadsWithOps chain actions) :
    AlongRun VersionChain.step
      (fun chain action => LoadsWithOps chain action ∧ CountFits chain action) chain
      actions := by
  induction actions generalizing chain with
  | nil => trivial
  | cons action rest ih =>
      have hlength := chain.length_recordedOps_step action
      rw [List.countP_cons] at hfew
      refine ⟨⟨hloads.1, ?_⟩, ih ?_ hloads.2⟩
      · cases action with
        | operate action =>
            intro hedits
            have hcount : ChainAction.edits (.operate action) = true := hedits
            rw [if_pos hcount] at hfew
            omega
        | load link secretKey => trivial
        | elsewhere data => trivial
      · omega

variable [LawfulPrimitives]

/-- In a run whose loads keep the count, no id is given twice, and `collect_ops_since`
has every operation of the logs that it reads. -/
theorem recordedOps_ids_nodup {id : Uuid} {name : Name} {owner : SecretKey} {world : World}
    {state : MountState}
    (hinit : (init id name owner).run world = .ok state.inner state.world)
    (actions : List ChainAction) (hfew : actions.countP ChainAction.edits < 2 ^ 64)
    (hloads : AlongRun VersionChain.step LoadsWithOps (VersionChain.start state) actions)
    (chain : VersionChain) (hchain : chain = (VersionChain.start state).run actions) :
    ((recordedOps chain.history).map PathOperation.id).Nodup ∧
    ∀ fuel ancestor logs, collectLogs chain.state.world.blobs chain.state.inner.secretKey
        ancestor fuel chain.state.inner.link = .ok logs →
      ∃ log, chain.state.inner.collectOpsSince chain.state.world.blobs fuel ancestor =
          .ok log ∧
        ∀ op, op ∈ log ↔ op ∈ chain.state.inner.opsLog ∨ ∃ stored ∈ logs, op ∈ stored := by
  have hcount : (recordedOps (VersionChain.start state).history).length +
      actions.countP ChainAction.edits < 2 ^ 64 := by
    rw [VersionChain.start, recordedOps_saved]
    simpa [recordedOps] using hfew
  have hsound := VersionChain.sound_run countRules hinit (alongRun_countFits hcount hloads)
  rw [← hchain] at hsound
  have hids := hsound.pending.1.nodup
  refine ⟨hids, ?_⟩
  intro fuel ancestor logs hwalk
  exact mem_collectOpsSince hwalk hids hsound.pending.2.2.subset
    (mem_of_collectLogs (fun _ _ hversion => hversion.2.1.subset) fuel hsound.versions
      hsound.link hwalk)

end

namespace Reference

/-- The saved directory, saved once more without pending operations. -/
def savedTwice : VersionChain := savedDirectory.step (.operate (.save false))

def countLost : List ChainAction :=
  [.operate (.mkdir (absPath ["a".toList])), .operate (.save false), .operate (.save false),
    .load savedTwice.state.inner.link alice, .operate (.mkdir (absPath ["b".toList]))]

set_option maxRecDepth 100000 in
/-- The second directory gets the id of the first. -/
theorem countLost_reuses_id :
    ¬ ((recordedOps ((VersionChain.start freshMount).run countLost).history).map
      PathOperation.id).Nodup := by
  decide +kernel

def countKept : List ChainAction :=
  [.operate (.mkdir (absPath ["a".toList])), .operate (.save false),
    .load savedDirectory.state.inner.link alice, .operate (.mkdir (absPath ["b".toList]))]

set_option maxRecDepth 100000 in
theorem countKept_ids_nodup :
    ((recordedOps ((VersionChain.start freshMount).run countKept).history).map
      PathOperation.id).Nodup := by
  have hmanifest : (getManifestFromBlobs savedDirectory.state.world.blobs
      savedDirectory.state.inner.link).toOption.map (fun manifest => manifest.opsLog.isSome) =
        some true := by
    decide +kernel
  have hloads : AlongRun VersionChain.step LoadsWithOps (VersionChain.start freshMount)
      countKept := by
    refine ⟨trivial, trivial, ?_, trivial, trivial⟩
    left
    obtain ⟨manifest, hread, hsome⟩ := Option.map_eq_some_iff.mp hmanifest
    obtain ⟨opsLink, hopsLink⟩ := Option.isSome_iff_exists.mp hsome
    exact ⟨manifest, opsLink, Except.eq_ok_of_toOption hread, hopsLink⟩
  have hfew : countKept.countP ChainAction.edits < 2 ^ 64 := by decide
  exact (recordedOps_ids_nodup run_init_freshMount countKept hfew hloads _ rfl).1

end Reference

end JaxFs

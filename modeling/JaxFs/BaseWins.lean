import JaxFs.Folds
import JaxFs.MergeWithResolver

/-!
# Merging with local precedence

`BaseWins` refuses every incoming operation that conflicts with a local one.  A
directory creation conflicts with no creation, so it enters beside a local one, and
an incoming file enters beside local directory creations.  Such an operation becomes
the winner of its path when it is the latest.
-/

namespace JaxFs

namespace PathOpLog

/-- No operation of the log destroys what is at the path. -/
def NoneDestructiveAt (log : PathOpLog) (path : Path) : Prop :=
  ∀ op ∈ log, op.path = path → isDestructive op.opType = false

/-- An incoming operation that nothing on its path opposes: a directory creation, or the
first incoming file where the log has none. -/
structure Unopposed (log : PathOpLog) (incoming : List PathOperation)
    (op : PathOperation) : Prop where
  mem : op ∈ incoming
  isNew : log.IsNew op
  noneDestructive : log.NoneDestructiveAt op.path
  creates : op.opType = .mkdir ∨
    (op.opType = .add ∧ (∀ existing ∈ log, existing.path = op.path → existing.opType ≠ .add) ∧
      ∀ other ∈ incoming, log.IsNew other → other.path = op.path → other.opType = .add →
        op.id ≤ other.id)

/-- The incoming operation is the latest of those that nothing opposes, and later than
the winner. -/
def Overrides (log other : PathOpLog) (winner op : PathOperation) : Prop :=
  log.Unopposed other.operations.toList op ∧ op.path = winner.path ∧ winner.id < op.id ∧
    ∀ later, log.Unopposed other.operations.toList later → later.path = winner.path →
      later.id ≤ op.id

/-- The log at a path after some of the incoming operations. -/
structure Merging (base : PathOpLog) (path : Path) (seen : List PathOperation)
    (log : PathOpLog) : Prop where
  old : ∀ op ∈ base, op ∈ log
  origin : ∀ op ∈ log, op ∈ base ∨ op ∈ seen
  mem_iff : ∀ op, op.path = path → (op ∈ log ↔ op ∈ base ∨ base.Unopposed seen op)
  files : base.NoneDestructiveAt path → ∀ op ∈ seen, base.IsNew op → op.path = path →
    op.opType = .add → ∃ file ∈ log, file.path = path ∧ file.opType = .add

section

variable {base log : PathOpLog} {path : Path} {seen : List PathOperation}
  {op existing : PathOperation}

theorem IsNew.mono (h : log.IsNew op) (hsubset : ∀ existing ∈ base, existing ∈ log) :
    base.IsNew op :=
  isNew_iff.mpr (fun existing hexisting => isNew_iff.mp h existing (hsubset existing hexisting))

theorem Unopposed.not_destructive (h : base.Unopposed seen op) :
    isDestructive op.opType = false := by
  rcases h.creates with hmkdir | ⟨hadd, _⟩
  · rw [hmkdir]
    rfl
  · rw [hadd]
    rfl

/-- A later operation does not oppose an earlier one. -/
theorem unopposed_append_iff (hlater : ∀ earlier ∈ seen, earlier.id < op.id)
    (hseen : existing ∈ seen) :
    base.Unopposed (seen ++ [op]) existing ↔ base.Unopposed seen existing := by
  constructor
  · intro h
    refine ⟨hseen, h.isNew, h.noneDestructive, h.creates.imp_right ?_⟩
    rintro ⟨hadd, hnone, hfirst⟩
    exact ⟨hadd, hnone, fun other hother => hfirst other (List.mem_append_left _ hother)⟩
  · intro h
    refine ⟨List.mem_append_left _ hseen, h.isNew, h.noneDestructive, h.creates.imp_right ?_⟩
    rintro ⟨hadd, hnone, hfirst⟩
    refine ⟨hadd, hnone, ?_⟩
    intro other hother
    rcases List.mem_append.mp hother with hearlier | hlast
    · exact hfirst other hearlier
    · intro _ _ _
      rw [List.mem_singleton.mp hlast]
      exact (hlater existing hseen).le

/-- An operation that is new to the base is new to the log. -/
theorem Merging.isNew_iff (h : base.Merging path seen log)
    (hlater : ∀ earlier ∈ seen, earlier.id < op.id) : log.IsNew op ↔ base.IsNew op := by
  apply isNew_iff_of_grown h.old
  intro existing hexisting
  exact (h.origin existing hexisting).imp_right (fun hseen => (hlater existing hseen).ne)

/-- The log is as before: the operation is on another path, or opposed. -/
theorem Merging.skip (h : base.Merging path seen log)
    (hlater : ∀ earlier ∈ seen, earlier.id < op.id) (clock : ℕ)
    (hopposed : op.path = path → ¬ base.Unopposed (seen ++ [op]) op)
    (hfile : base.NoneDestructiveAt path → base.IsNew op → op.path = path →
      op.opType = .add → ∃ file ∈ log, file.path = path ∧ file.opType = .add) :
    base.Merging path (seen ++ [op]) ⟨log.operations, clock⟩ := by
  refine ⟨h.old, fun existing hexisting => (h.origin existing hexisting).imp_right
    (List.mem_append_left _), ?_, ?_⟩
  · intro existing hpath
    refine (h.mem_iff existing hpath).trans (or_congr Iff.rfl ?_)
    constructor
    · intro hunopposed
      exact (unopposed_append_iff hlater hunopposed.mem).mpr hunopposed
    · intro hunopposed
      rcases List.mem_append.mp hunopposed.mem with hseen | hlast
      · exact (unopposed_append_iff hlater hseen).mp hunopposed
      · rw [List.mem_singleton.mp hlast] at hunopposed hpath
        exact absurd hunopposed (hopposed hpath)
  · intro hnone other hother hnew hpath hadd
    rcases List.mem_append.mp hother with hseen | hlast
    · exact h.files hnone other hseen hnew hpath hadd
    · rw [List.mem_singleton.mp hlast] at hnew hpath hadd
      exact hfile hnone hnew hpath hadd

/-- The operation entered: it is on another path, or nothing opposes it. -/
theorem Merging.enter (h : base.Merging path seen log)
    (hlater : ∀ earlier ∈ seen, earlier.id < op.id) (hnew : log.IsNew op) (clock : ℕ)
    (hunopposed : op.path = path → base.Unopposed (seen ++ [op]) op) :
    base.Merging path (seen ++ [op]) ⟨log.operations.insert op, clock⟩ := by
  have hmem : ∀ existing, existing ∈ (⟨log.operations.insert op, clock⟩ : PathOpLog) ↔
      existing = op ∨ existing ∈ log := by
    intro existing
    exact KeyedMap.mem_insert_of_contains_eq_false hnew
  refine ⟨fun existing hexisting => (hmem existing).mpr (Or.inr (h.old existing hexisting)),
    ?_, ?_, ?_⟩
  · intro existing hexisting
    rcases (hmem existing).mp hexisting with rfl | hold
    · exact Or.inr (by simp)
    · exact (h.origin existing hold).imp_right (List.mem_append_left _)
  · intro existing hpath
    rw [hmem, h.mem_iff existing hpath]
    constructor
    · rintro (rfl | hbase | hearlier)
      · exact Or.inr (hunopposed hpath)
      · exact Or.inl hbase
      · exact Or.inr ((unopposed_append_iff hlater hearlier.mem).mpr hearlier)
    · rintro (hbase | hentered)
      · exact Or.inr (Or.inl hbase)
      · rcases List.mem_append.mp hentered.mem with hseen | hlast
        · exact Or.inr (Or.inr ((unopposed_append_iff hlater hseen).mp hentered))
        · exact Or.inl (List.mem_singleton.mp hlast)
  · intro hnone other hother hnewOther hpath hadd
    rcases List.mem_append.mp hother with hseen | hlast
    · obtain ⟨file, hfile, hfilePath, hfileAdd⟩ :=
        h.files hnone other hseen hnewOther hpath hadd
      exact ⟨file, (hmem file).mpr (Or.inr hfile), hfilePath, hfileAdd⟩
    · rw [List.mem_singleton.mp hlast] at hpath hadd
      exact ⟨op, (hmem op).mpr (Or.inl rfl), hpath, hadd⟩

/-- The log holds an operation that conflicts with the incoming one. -/
theorem Merging.opposed (h : base.Merging path seen log)
    (hlater : ∀ earlier ∈ seen, earlier.id < op.id) (hpath : op.path = path)
    (hexisting : existing ∈ log) (hconflict : operationsConflict existing op = true) :
    ¬ base.Unopposed (seen ++ [op]) op := by
  intro hunopposed
  have hop := hunopposed.not_destructive
  obtain ⟨_, hsame, hkinds⟩ := operationsConflict_iff.mp hconflict
  have hmild : isDestructive existing.opType = false := by
    rcases (h.mem_iff existing (hsame.trans hpath)).mp hexisting with hbase | hentered
    · exact hunopposed.noneDestructive existing hbase hsame
    · exact hentered.not_destructive
  rw [hop, hmild] at hkinds
  have hadds : existing.opType = .add ∧ op.opType = .add := by simpa using hkinds
  obtain ⟨_, hnone, hfirst⟩ : op.opType = .add ∧ _ := by
    rcases hunopposed.creates with hmkdir | hadd
    · rw [hmkdir] at hadds
      exact absurd hadds.2 (by decide)
    · exact hadd
  rcases (h.mem_iff existing (hsame.trans hpath)).mp hexisting with hbase | hentered
  · exact hnone existing hbase hsame hadds.1
  · have hle := hfirst existing (List.mem_append_left _ hentered.mem) hentered.isNew hsame
      hadds.1
    exact absurd (hlater existing hentered.mem) (not_lt.mpr hle)

/-- Nothing in the log conflicts with the incoming operation. -/
theorem Merging.unopposed (h : base.Merging path seen log) (hnew : log.IsNew op)
    (hpath : op.path = path) (hlocal : ∃ local' ∈ base, local'.path = path)
    (hfree : ∀ existing ∈ log, operationsConflict existing op = false) :
    base.Unopposed (seen ++ [op]) op := by
  have hkinds : ∀ existing ∈ log, existing.path = op.path →
      isDestructive existing.opType = false ∧ isDestructive op.opType = false ∧
        ¬ (existing.opType = .add ∧ op.opType = .add) := by
    intro existing hexisting hsame
    have hnot := mt operationsConflict_iff.mpr (Bool.eq_false_iff.mp (hfree existing hexisting))
    have hid := PathOpLog.isNew_iff.mp hnew existing hexisting
    refine ⟨?_, ?_, fun hadds => hnot ⟨hid, hsame, Or.inr (Or.inr hadds)⟩⟩
    · exact Bool.eq_false_iff.mpr (fun hdestroys => hnot ⟨hid, hsame, Or.inl hdestroys⟩)
    · exact Bool.eq_false_iff.mpr
        (fun hdestroys => hnot ⟨hid, hsame, Or.inr (Or.inl hdestroys)⟩)
  have hnone : base.NoneDestructiveAt op.path :=
    fun existing hexisting hsame => (hkinds existing (h.old existing hexisting) hsame).1
  obtain ⟨local', hbase, hlocalPath⟩ := hlocal
  have hmild := (hkinds local' (h.old local' hbase) (hlocalPath.trans hpath.symm)).2.1
  refine ⟨by simp, hnew.mono h.old, hnone, ?_⟩
  cases hop : op.opType with
  | remove =>
      rw [hop] at hmild
      contradiction
  | mv source =>
      rw [hop] at hmild
      contradiction
  | mkdir => exact Or.inl rfl
  | add =>
      refine Or.inr ⟨rfl, ?_, ?_⟩
      · intro existing hexisting hsame hadd
        exact (hkinds existing (h.old existing hexisting) hsame).2.2 ⟨hadd, hop⟩
      · intro other hother hnewOther hsame hadd
        rcases List.mem_append.mp hother with hseen | hlast
        · -- an earlier incoming file would have left a file in the log
          obtain ⟨file, hfile, hfilePath, hfileAdd⟩ := h.files (hpath ▸ hnone) other hseen
            hnewOther (hsame.trans hpath) hadd
          exact absurd ⟨hfileAdd, hop⟩ (hkinds file hfile (hfilePath.trans hpath.symm)).2.2
        · rw [List.mem_singleton.mp hlast]

/-- One incoming operation. -/
theorem Merging.step (state : PathOpLog × MergeResult) (peer : PublicKey)
    (h : base.Merging path seen state.1) (hlater : ∀ earlier ∈ seen, earlier.id < op.id)
    (hlocal : ∃ local' ∈ base, local'.path = path) :
    base.Merging path (seen ++ [op]) (resolveOperation baseWins peer state op).1 := by
  rcases resolveOperation_cases baseWins peer state op with
    ⟨hold, hrun⟩ | ⟨hnew, hfree, clock, hrun⟩ | ⟨hnew, existing, clock, hfind, hrun⟩
  · rw [hrun]
    rw [h.isNew_iff hlater] at hold
    exact h.skip hlater _ (fun _ hunopposed => hold hunopposed.isNew)
      (fun _ hnew => absurd hnew hold)
  · rw [hrun]
    exact h.enter hlater hnew clock (fun hpath => h.unopposed hnew hpath hlocal hfree)
  · rw [hrun]
    have hexisting : existing ∈ state.1 := List.mem_of_find?_eq_some hfind
    have hconflict : operationsConflict existing op = true := by
      simpa using List.find?_some hfind
    refine h.skip hlater clock (fun hpath => h.opposed hlater hpath hexisting hconflict) ?_
    intro hnone _ hpath hadd
    -- a file is refused because the log holds one
    obtain ⟨_, hsame, hkinds⟩ := operationsConflict_iff.mp hconflict
    refine ⟨existing, hexisting, hsame.trans hpath, ?_⟩
    have hmild : isDestructive existing.opType = false := by
      rcases (h.mem_iff existing (hsame.trans hpath)).mp hexisting with hbase | hentered
      · exact hnone existing hbase (hsame.trans hpath)
      · exact hentered.not_destructive
    rw [hmild, hadd] at hkinds
    rcases hkinds with habsurd | habsurd | hadds
    · contradiction
    · contradiction
    · exact hadds.1

end

/-- At a path with a local operation the merge takes what nothing opposes. -/
theorem merging_mergeWithResolver (log other : PathOpLog) (peer : PublicKey) {path : Path}
    (hlocal : ∃ local' ∈ log, local'.path = path) :
    log.Merging path other.operations.toList
      (log.mergeWithResolver other baseWins peer).1 := by
  have hstart : log.Merging path [] log :=
    ⟨fun op hop => hop, fun op hop => Or.inl hop, fun op _ =>
      ⟨Or.inl, fun h => h.elim id (fun hunopposed => absurd hunopposed.mem List.not_mem_nil)⟩,
      fun _ op hop => absurd hop List.not_mem_nil⟩
  apply foldl_seen (motive := fun seen (state : PathOpLog × MergeResult) =>
    log.Merging path seen state.1) other.operations.sorted hstart
  intro seen op state _ hlater h
  exact h.step state peer hlater hlocal

/-- The winner of a path keeps its type and its content exactly when no incoming
operation overrides it, or the one that does has the same type and content. -/
theorem baseWins_keeps_winner_iff (log other : PathOpLog) (peer : PublicKey) {path : Path}
    {winner : PathOperation} (hwinner : log.resolvePath path = some winner) :
    (∃ merged, (log.mergeWithResolver other baseWins peer).1.resolvePath path = some merged ∧
        merged.opType = winner.opType ∧ merged.contentLink = winner.contentLink) ↔
      ∀ op, log.Overrides other winner op →
        op.opType = winner.opType ∧ op.contentLink = winner.contentLink := by
  obtain ⟨hmem, hpath, hmax⟩ := resolvePath_eq_some_iff.mp hwinner
  have hmerging := merging_mergeWithResolver log other peer ⟨winner, hmem, hpath⟩
  cases hmerged : (log.mergeWithResolver other baseWins peer).1.resolvePath path with
  | none =>
      exact absurd hpath (resolvePath_eq_none_iff.mp hmerged winner (hmerging.old winner hmem))
  | some merged =>
      obtain ⟨hmergedMem, hmergedPath, hmergedMax⟩ := resolvePath_eq_some_iff.mp hmerged
      have hentered : ∀ op, log.Unopposed other.operations.toList op → op.path = path →
          op.id ≤ merged.id := by
        intro op hunopposed hopPath
        exact hmergedMax op ((hmerging.mem_iff op hopPath).mpr (Or.inr hunopposed)) hopPath
      have hwinnerLe := hmergedMax winner (hmerging.old winner hmem) hpath
      rcases (hmerging.mem_iff merged hmergedPath).mp hmergedMem with hbase | hunopposed
      · have hsame : merged = winner :=
          KeyedMap.eq_of_mem_of_key_eq hbase hmem
            (le_antisymm (hmax merged hbase hmergedPath) hwinnerLe)
        rw [hsame] at hentered ⊢
        constructor
        · rintro _ op ⟨hopUnopposed, hopPath, hlt, _⟩
          exact absurd hlt (not_lt.mpr (hentered op hopUnopposed (hopPath.trans hpath)))
        · intro _
          exact ⟨winner, rfl, rfl, rfl⟩
      · have hlt : winner.id < merged.id :=
          lt_of_le_of_ne hwinnerLe (isNew_iff.mp hunopposed.isNew winner hmem)
        have hoverrides : log.Overrides other winner merged :=
          ⟨hunopposed, hmergedPath.trans hpath.symm, hlt,
            fun later hlater hlaterPath => hentered later hlater (hlaterPath.trans hpath)⟩
        constructor
        · rintro ⟨found, hfound, hsame⟩ op hop
          cases hfound
          have hid : op.id = merged.id := le_antisymm
            (hentered op hop.1 (hop.2.1.trans hpath))
            (hop.2.2.2 merged hunopposed (hmergedPath.trans hpath.symm))
          rw [KeyedMap.eq_of_mem_of_key_eq hop.1.mem hunopposed.mem hid]
          exact hsame
        · intro hall
          exact ⟨merged, rfl, hall merged hoverrides⟩

/-- A file of the local peer and a later directory creation of another one. -/
def localFile : PathOperation :=
  ⟨⟨1, ⟨List.replicate 32 1⟩⟩, .add, relPath ["notes".toList], some Link.default, false⟩

def incomingDirectory : PathOperation :=
  ⟨⟨2, ⟨List.replicate 32 2⟩⟩, .mkdir, relPath ["notes".toList], none, true⟩

/-- The directory creation becomes the winner of the path. -/
theorem localFile_overridden :
    (fromOperation localFile).resolvePath (relPath ["notes".toList]) = some localFile ∧
      ((fromOperation localFile).mergeWithResolver (fromOperation incomingDirectory)
        baseWins ⟨List.replicate 32 1⟩).1.resolvePath (relPath ["notes".toList]) =
        some incomingDirectory ∧
      incomingDirectory.opType ≠ localFile.opType ∧
      incomingDirectory.contentLink ≠ localFile.contentLink := by
  decide +kernel

/-- A removal does not. -/
theorem localFile_kept :
    ∃ merged, ((fromOperation localFile).mergeWithResolver
        (fromOperation { incomingDirectory with opType := .remove }) baseWins
        ⟨List.replicate 32 1⟩).1.resolvePath (relPath ["notes".toList]) = some merged ∧
      merged.opType = localFile.opType ∧ merged.contentLink = localFile.contentLink := by
  apply (baseWins_keeps_winner_iff (fromOperation localFile) _ _ (by decide)).mpr
  rintro op ⟨hunopposed, _⟩
  have hop := mem_fromOperation.mp hunopposed.mem
  have hmild := hunopposed.not_destructive
  rw [hop] at hmild
  contradiction

end PathOpLog

end JaxFs

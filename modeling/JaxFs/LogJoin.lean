import JaxFs.MergeWithResolver

/-!
# Merging as a join

`PathOpLog::merge` takes the union of two logs that agree on the ids they share,
whichever side a shared id comes from.  So every order, grouping and repetition of
merges gives the same operations.  The last-write-wins merge may leave operations
out, but never the newest one of a path.
-/

namespace JaxFs

namespace PathOpLog

/-- Operations with the same id are the same. -/
def Agree (log other : PathOpLog) : Prop :=
  ∀ op ∈ log, ∀ op' ∈ other, op.id = op'.id → op = op'

instance (log other : PathOpLog) : Decidable (Agree log other) :=
  inferInstanceAs (Decidable (∀ op ∈ log.operations.toList,
    ∀ op' ∈ other.operations.toList, op.id = op'.id → op = op'))

theorem Agree.symm {log other : PathOpLog} (h : Agree log other) : Agree other log :=
  fun op hop op' hop' hid => (h op' hop' op hop hid.symm).symm

theorem agree_self (log : PathOpLog) : Agree log log :=
  fun _ hop _ hop' hid => KeyedMap.eq_of_mem_of_key_eq hop hop' hid

/-! ## The members of a merge -/

theorem mem_mergeOperation {state : PathOpLog × ℕ} {op x : PathOperation} :
    x ∈ (mergeOperation state op).1 ↔ x ∈ state.1 ∨ (x = op ∧ state.1.IsNew op) := by
  unfold mergeOperation IsNew
  cases hknown : state.1.operations.contains op.id with
  | true => simp
  | false =>
      have hmem := @KeyedMap.mem_insert_of_contains_eq_false _ _ _ _ _ _ x hknown
      rw [if_neg (by simp)]
      change x ∈ state.1.operations.insert op ↔ _
      rw [hmem, mem_iff]
      simp [or_comm]

/-- A merge adds the operations whose ids are new. -/
theorem mem_merge {log other : PathOpLog} {x : PathOperation} :
    x ∈ (log.merge other).1 ↔ x ∈ log ∨ (x ∈ other ∧ log.IsNew x) := by
  unfold merge
  have hfold : ∀ (incoming : List PathOperation),
      incoming.Pairwise (fun a b => a.id < b.id) → ∀ state : PathOpLog × ℕ,
      (x ∈ (incoming.foldl mergeOperation state).1 ↔
        x ∈ state.1 ∨ (x ∈ incoming ∧ state.1.IsNew x)) := by
    intro incoming
    induction incoming with
    | nil => simp
    | cons first rest ih =>
        intro hsorted state
        obtain ⟨hfirst, hrest⟩ := List.pairwise_cons.mp hsorted
        rw [List.foldl_cons, ih hrest, mem_mergeOperation]
        constructor
        · intro hcases
          rcases hcases with (hold | ⟨rfl, hnew⟩) | ⟨hlater, hnew⟩
          · exact Or.inl hold
          · exact Or.inr ⟨List.mem_cons_self, hnew⟩
          · right
            refine ⟨List.mem_cons_of_mem _ hlater, ?_⟩
            rw [isNew_iff] at hnew ⊢
            intro existing hexisting
            exact hnew existing (mem_mergeOperation.mpr (Or.inl hexisting))
        · intro hcases
          rcases hcases with hold | ⟨hmem, hnew⟩
          · exact Or.inl (Or.inl hold)
          · rcases List.mem_cons.mp hmem with rfl | hlater
            · exact Or.inl (Or.inr ⟨rfl, hnew⟩)
            · right
              refine ⟨hlater, ?_⟩
              rw [isNew_iff] at hnew ⊢
              intro existing hexisting
              rcases mem_mergeOperation.mp hexisting with hold | ⟨rfl, -⟩
              · exact hnew existing hold
              · exact (hfirst x hlater).ne
  exact hfold other.operations.toList other.operations.sorted (log, 0)

/-- Of logs that agree, the merge is the union. -/
theorem mem_merge_of_agree {log other : PathOpLog} (h : Agree log other)
    {x : PathOperation} : x ∈ (log.merge other).1 ↔ x ∈ log ∨ x ∈ other := by
  rw [mem_merge]
  constructor
  · intro hcases
    rcases hcases with hold | ⟨hother, -⟩
    · exact Or.inl hold
    · exact Or.inr hother
  · intro hcases
    rcases hcases with hold | hother
    · exact Or.inl hold
    · by_cases hnew : log.IsNew x
      · exact Or.inr ⟨hother, hnew⟩
      · left
        rw [isNew_iff] at hnew
        push Not at hnew
        obtain ⟨existing, hexisting, hid⟩ := hnew
        rw [← h existing hexisting x hother hid]
        exact hexisting

theorem operations_eq_of_mem_iff {log log' : PathOpLog} (h : ∀ op, op ∈ log ↔ op ∈ log') :
    log.operations = log'.operations :=
  KeyedMap.ext_mem h

theorem resolvePath_eq_of_mem_iff {log log' : PathOpLog} (h : ∀ op, op ∈ log ↔ op ∈ log')
    (path : Path) : log.resolvePath path = log'.resolvePath path :=
  resolvePath_congr (fun op _ => h op)

/-! ## Merge trees -/

/-- An order and a grouping of merges. -/
inductive MergeTree where
  | leaf (log : PathOpLog)
  | merge (left right : MergeTree)

namespace MergeTree

def logs : MergeTree → List PathOpLog
  | .leaf log => [log]
  | .merge left right => left.logs ++ right.logs

/-- The right side is merged into the left one. -/
def eval : MergeTree → PathOpLog
  | .leaf log => log
  | .merge left right => (left.eval.merge right.eval).1

/-- The operations of a tree are those of its logs. -/
theorem mem_eval {tree : MergeTree}
    (hagree : ∀ log ∈ tree.logs, ∀ other ∈ tree.logs, Agree log other)
    {op : PathOperation} : op ∈ tree.eval ↔ ∃ log ∈ tree.logs, op ∈ log := by
  induction tree generalizing op with
  | leaf log => simp [eval, logs]
  | merge left right ihLeft ihRight =>
      have hleft : ∀ {x : PathOperation}, x ∈ left.eval ↔ ∃ log ∈ left.logs, x ∈ log :=
        ihLeft (fun log hlog other hother => hagree log (List.mem_append_left _ hlog) other
          (List.mem_append_left _ hother))
      have hright : ∀ {x : PathOperation}, x ∈ right.eval ↔ ∃ log ∈ right.logs, x ∈ log :=
        ihRight (fun log hlog other hother => hagree log (List.mem_append_right _ hlog)
          other (List.mem_append_right _ hother))
      have hsides : Agree left.eval right.eval := by
        intro x hx y hy hid
        obtain ⟨log, hlog, hxlog⟩ := hleft.mp hx
        obtain ⟨other, hother, hyother⟩ := hright.mp hy
        exact hagree log (List.mem_append_left _ hlog) other
          (List.mem_append_right _ hother) x hxlog y hyother hid
      rw [eval, mem_merge_of_agree hsides, hleft, hright, logs]
      simp only [List.mem_append]
      constructor
      · intro hcases
        rcases hcases with ⟨log, hlog, hmem⟩ | ⟨log, hlog, hmem⟩
        · exact ⟨log, Or.inl hlog, hmem⟩
        · exact ⟨log, Or.inr hlog, hmem⟩
      · intro ⟨log, hlog, hmem⟩
        rcases hlog with hlog | hlog
        · exact Or.inl ⟨log, hlog, hmem⟩
        · exact Or.inr ⟨log, hlog, hmem⟩

theorem eval_congr {tree tree' : MergeTree}
    (hagree : ∀ log ∈ tree.logs, ∀ other ∈ tree.logs, Agree log other)
    (hsame : ∀ log, log ∈ tree.logs ↔ log ∈ tree'.logs) :
    tree.eval.operations = tree'.eval.operations ∧
      tree.eval.resolveAll = tree'.eval.resolveAll := by
  have hagree' : ∀ log ∈ tree'.logs, ∀ other ∈ tree'.logs, Agree log other := by
    intro log hlog other hother
    exact hagree log ((hsame log).mpr hlog) other ((hsame other).mpr hother)
  have hmem : ∀ op, op ∈ tree.eval ↔ op ∈ tree'.eval := by
    intro op
    rw [mem_eval hagree, mem_eval hagree']
    simp only [hsame]
  exact ⟨operations_eq_of_mem_iff hmem, resolveAll_congr (resolvePath_eq_of_mem_iff hmem)⟩

end MergeTree

/-- Merging is a join on the operations of logs that agree: commutative, associative
and idempotent, so that two merge trees over the same logs give the same
operations and the same winners. -/
theorem merge_join :
    (∀ log other : PathOpLog, Agree log other →
      (log.merge other).1.operations = (other.merge log).1.operations) ∧
    (∀ log other third : PathOpLog, Agree log other → Agree other third →
      Agree log third →
      ((log.merge other).1.merge third).1.operations =
        (log.merge (other.merge third).1).1.operations) ∧
    (∀ log : PathOpLog, (log.merge log).1.operations = log.operations) ∧
    (∀ tree tree' : MergeTree,
      (∀ log ∈ tree.logs, ∀ other ∈ tree.logs, Agree log other) →
      (∀ log, log ∈ tree.logs ↔ log ∈ tree'.logs) →
      tree.eval.operations = tree'.eval.operations ∧
        tree.eval.resolveAll = tree'.eval.resolveAll) := by
  refine ⟨?_, ?_, ?_, fun _ _ => MergeTree.eval_congr⟩
  · intro log other hagree
    apply operations_eq_of_mem_iff
    intro op
    rw [mem_merge_of_agree hagree, mem_merge_of_agree hagree.symm, or_comm]
  · intro log other third hfirst hsecond hthird
    have htree := @MergeTree.eval_congr
      (.merge (.merge (.leaf log) (.leaf other)) (.leaf third))
      (.merge (.leaf log) (.merge (.leaf other) (.leaf third)))
    apply (htree ?_ ?_).1
    · simp only [MergeTree.logs, List.singleton_append, List.mem_append, List.mem_cons,
        List.not_mem_nil, or_false]
      intro a ha b hb
      rcases ha with (rfl | rfl) | rfl <;> rcases hb with (rfl | rfl) | rfl
      · exact agree_self _
      · exact hfirst
      · exact hthird
      · exact hfirst.symm
      · exact agree_self _
      · exact hsecond
      · exact hthird.symm
      · exact hsecond.symm
      · exact agree_self _
    · simp [MergeTree.logs]
  · intro log
    apply operations_eq_of_mem_iff
    intro op
    rw [mem_merge_of_agree (agree_self log), or_self_iff]

/-- The log of a peer that adds the file `notes`. -/
def addNotes (peer : PublicKey) : PathOpLog :=
  (PathOpLog.new.record peer .add (relPath ["notes".toList]) (some Link.default) false).2

theorem addNotes_merge_join :
    Agree (addNotes ⟨[1]⟩) (addNotes ⟨[2]⟩) ∧
      (((addNotes ⟨[1]⟩).merge (addNotes ⟨[2]⟩)).1.merge (addNotes ⟨[1]⟩)).1.operations =
        ((addNotes ⟨[2]⟩).merge (addNotes ⟨[1]⟩)).1.operations := by
  have hagree : ∀ log ∈ [addNotes ⟨[1]⟩, addNotes ⟨[2]⟩, addNotes ⟨[1]⟩],
      ∀ other ∈ [addNotes ⟨[1]⟩, addNotes ⟨[2]⟩, addNotes ⟨[1]⟩], Agree log other := by
    decide
  refine ⟨by decide, (merge_join.2.2.2
    (.merge (.merge (.leaf (addNotes ⟨[1]⟩)) (.leaf (addNotes ⟨[2]⟩)))
      (.leaf (addNotes ⟨[1]⟩)))
    (.merge (.leaf (addNotes ⟨[2]⟩)) (.leaf (addNotes ⟨[1]⟩))) hagree ?_).1⟩
  simp [MergeTree.logs]

/-! ## Last write wins -/

/-- A merge that leaves an operation out only for a newer one on its path. -/
structure KeepsNewest (log : PathOpLog) (ops : List PathOperation) (merged : PathOpLog) :
    Prop where
  keeps : ∀ op ∈ log, op ∈ merged
  sources : ∀ op ∈ merged, op ∈ log ∨ op ∈ ops
  covers : ∀ op ∈ ops, (∃ existing ∈ merged, existing.id = op.id) ∨
    ∃ newer ∈ merged, newer.path = op.path ∧ op.id < newer.id

theorem keepsNewest_resolveOperation (localPeer : PublicKey)
    (state : PathOpLog × MergeResult) (op : PathOperation) :
    KeepsNewest state.1 [op] (resolveOperation lastWriteWins localPeer state op).1 := by
  have hinsert : ∀ clock, state.1.IsNew op →
      KeepsNewest state.1 [op] ⟨state.1.operations.insert op, clock⟩ := by
    intro clock hnew
    have hmem : ∀ x, x ∈ state.1.operations.insert op ↔ x = op ∨ x ∈ state.1.operations :=
      fun x => KeyedMap.mem_insert_of_contains_eq_false hnew
    constructor
    · exact fun x hx => (hmem x).mpr (Or.inr hx)
    · intro x hx
      rcases (hmem x).mp hx with rfl | hold
      · exact Or.inr List.mem_cons_self
      · exact Or.inl hold
    · intro x hx
      rw [List.mem_singleton] at hx
      subst hx
      exact Or.inl ⟨x, (hmem x).mpr (Or.inl rfl), rfl⟩
  rcases resolveOperation_cases lastWriteWins localPeer state op with
    ⟨hknown, h⟩ | ⟨hnew, -, clock, h⟩ | ⟨hnew, base, clock, hfind, h⟩
  · rw [h]
    refine ⟨fun _ hx => hx, fun _ hx => Or.inl hx, ?_⟩
    intro x hx
    rw [List.mem_singleton] at hx
    subst hx
    rw [isNew_iff] at hknown
    push Not at hknown
    obtain ⟨existing, hexisting, hid⟩ := hknown
    exact Or.inl ⟨existing, hexisting, hid⟩
  · rw [h]
    exact hinsert clock hnew
  · rw [h]
    have hbase := List.mem_of_find?_eq_some hfind
    have hconflict := List.find?_some hfind
    have hpath := operationsConflict_path hconflict
    have hid := operationsConflict_id_ne hconflict
    by_cases hlt : base.id < op.id
    · have hresolution : lastWriteWins ⟨op.path, base, op⟩ localPeer = .useIncoming :=
        if_pos hlt
      rw [hresolution]
      exact hinsert clock hnew
    · -- the conflicting operation is newer, so the incoming one cannot win
      have hresolution : lastWriteWins ⟨op.path, base, op⟩ localPeer = .useBase :=
        if_neg hlt
      have hnewer : op.id < base.id := lt_of_le_of_ne (not_lt.mp hlt) (Ne.symm hid)
      rw [hresolution]
      refine ⟨fun _ hx => hx, fun _ hx => Or.inl hx, ?_⟩
      intro x hx
      rw [List.mem_singleton] at hx
      subst hx
      exact Or.inr ⟨base, hbase, hpath, hnewer⟩

theorem keepsNewest_resolveOperations (localPeer : PublicKey) (ops : List PathOperation)
    (state : PathOpLog × MergeResult) :
    KeepsNewest state.1 ops (resolveOperations lastWriteWins localPeer state ops).1 := by
  induction ops generalizing state with
  | nil => exact ⟨fun _ hx => hx, fun _ hx => Or.inl hx, by simp⟩
  | cons op rest ih =>
      rw [resolveOperations_cons]
      have hfirst := keepsNewest_resolveOperation localPeer state op
      have hrest := ih (resolveOperation lastWriteWins localPeer state op)
      constructor
      · exact fun x hx => hrest.keeps x (hfirst.keeps x hx)
      · intro x hx
        rcases hrest.sources x hx with hmiddle | hlater
        · rcases hfirst.sources x hmiddle with hold | hop
          · exact Or.inl hold
          · rw [List.mem_singleton] at hop
            exact Or.inr (List.mem_cons.mpr (Or.inl hop))
        · exact Or.inr (List.mem_cons_of_mem _ hlater)
      · intro x hx
        rcases List.mem_cons.mp hx with rfl | hlater
        · rcases hfirst.covers x List.mem_cons_self with
            ⟨existing, hexisting, hid⟩ | ⟨newer, hnewer, hwins⟩
          · exact Or.inl ⟨existing, hrest.keeps existing hexisting, hid⟩
          · exact Or.inr ⟨newer, hrest.keeps newer hnewer, hwins⟩
        · exact hrest.covers x hlater

/-- Leaving out operations that a newer one covers does not change the winners. -/
theorem KeepsNewest.resolvePath {log other merged : PathOpLog} (hagree : Agree log other)
    (h : KeepsNewest log other.operations.toList merged) (path : Path) :
    merged.resolvePath path = (log.merge other).1.resolvePath path := by
  have hunion : ∀ op, op ∈ (log.merge other).1 ↔ op ∈ log ∨ op ∈ other :=
    fun _ => mem_merge_of_agree hagree
  have hsub : ∀ op ∈ merged, op ∈ (log.merge other).1 :=
    fun op hop => (hunion op).mpr (h.sources op hop)
  have hcovers : ∀ op ∈ (log.merge other).1, op ∈ merged ∨
      ∃ newer ∈ merged, newer.path = op.path ∧ op.id < newer.id := by
    intro op hop
    rcases (hunion op).mp hop with hlog | hother
    · exact Or.inl (h.keeps op hlog)
    · rcases h.covers op hother with ⟨existing, hexisting, hid⟩ | hnewer
      · left
        have hsame : existing = op := by
          rcases h.sources existing hexisting with hlog | hincoming
          · exact hagree existing hlog op hother hid
          · exact KeyedMap.eq_of_mem_of_key_eq hincoming hother hid
        rw [← hsame]
        exact hexisting
      · exact Or.inr hnewer
  cases hwinner : (log.merge other).1.resolvePath path with
  | none =>
      rw [resolvePath_eq_none_iff] at hwinner ⊢
      exact fun op hop => hwinner op (hsub op hop)
  | some winner =>
      rw [resolvePath_eq_some_iff] at hwinner ⊢
      obtain ⟨hmem, hpath, hmax⟩ := hwinner
      refine ⟨?_, hpath, fun op hop hopPath => hmax op (hsub op hop) hopPath⟩
      rcases hcovers winner hmem with hin | ⟨newer, hnewer, hnewerPath, hlt⟩
      · exact hin
      · have hle := hmax newer (hsub newer hnewer) (hnewerPath.trans hpath)
        exact absurd hlt (not_lt.mpr hle)

/-- The last-write-wins merge and the plain merge have the same winners, and both
directions of it resolve to the same state. -/
theorem lastWriteWins_resolvePath (log other : PathOpLog) (hagree : Agree log other) :
    (∀ localPeer path,
      (log.mergeWithResolver other lastWriteWins localPeer).1.resolvePath path =
        (log.merge other).1.resolvePath path) ∧
    ∀ localPeer otherPeer,
      (log.mergeWithResolver other lastWriteWins localPeer).1.resolveAll =
        (other.mergeWithResolver log lastWriteWins otherPeer).1.resolveAll := by
  have hwinners : ∀ {a b : PathOpLog}, Agree a b → ∀ localPeer path,
      (a.mergeWithResolver b lastWriteWins localPeer).1.resolvePath path =
        (a.merge b).1.resolvePath path := by
    intro a b hab localPeer path
    exact (keepsNewest_resolveOperations localPeer b.operations.toList
      (a, MergeResult.new)).resolvePath hab path
  refine ⟨hwinners hagree, ?_⟩
  intro localPeer otherPeer
  apply resolveAll_congr
  intro path
  have hcomm : ∀ op, op ∈ (log.merge other).1 ↔ op ∈ (other.merge log).1 := by
    intro op
    rw [mem_merge_of_agree hagree, mem_merge_of_agree hagree.symm, or_comm]
  calc
    (log.mergeWithResolver other lastWriteWins localPeer).1.resolvePath path =
        (log.merge other).1.resolvePath path := hwinners hagree localPeer path
    _ = (other.merge log).1.resolvePath path := resolvePath_eq_of_mem_iff hcomm path
    _ = (other.mergeWithResolver log lastWriteWins otherPeer).1.resolvePath path :=
        (hwinners hagree.symm otherPeer path).symm

/-- The older of two files is left out by one direction and not by the other. -/
theorem addNotes_lastWriteWins :
    Agree (addNotes ⟨[2]⟩) (addNotes ⟨[1]⟩) ∧
      ((addNotes ⟨[2]⟩).mergeWithResolver (addNotes ⟨[1]⟩) lastWriteWins
        ⟨[2]⟩).1.resolvePath (relPath ["notes".toList]) =
        ((addNotes ⟨[2]⟩).merge (addNotes ⟨[1]⟩)).1.resolvePath (relPath ["notes".toList]) ∧
      ((addNotes ⟨[2]⟩).mergeWithResolver (addNotes ⟨[1]⟩) lastWriteWins
        ⟨[2]⟩).1.resolveAll =
        ((addNotes ⟨[1]⟩).mergeWithResolver (addNotes ⟨[2]⟩) lastWriteWins
          ⟨[1]⟩).1.resolveAll := by
  have hagree : Agree (addNotes ⟨[2]⟩) (addNotes ⟨[1]⟩) := by decide
  obtain ⟨hpath, hall⟩ := lastWriteWins_resolvePath _ _ hagree
  exact ⟨hagree, hpath _ _, hall _ _⟩

end PathOpLog

end JaxFs

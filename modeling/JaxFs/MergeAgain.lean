import JaxFs.ConflictCopies
import JaxFs.Folds

/-!
# Merging the same log again

An operation that a merge refuses is looked at again by the next merge of the same log, and
may meet another conflicting operation first.  Under the strategies that do not rename, it
is refused again: what is inserted after it was refused is newer than it, and the operation
it met first was the oldest of those it could have met.
-/

namespace JaxFs

namespace PathOpLog

/-- The resolver takes the incoming operation as it is or leaves it out.  If it leaves it out
for one operation, it does so for all that are not older, and for all that are newer than the
incoming one. -/
structure Steady (resolver : ConflictResolver) : Prop where
  decides : ∀ conflict localPeer, resolver conflict localPeer = .useBase ∨
    resolver conflict localPeer = .useIncoming ∨ resolver conflict localPeer = .keepBoth
  upward : ∀ path base op existing localPeer localPeer',
    resolver ⟨path, base, op⟩ localPeer = .useBase →
      base.id ≤ existing.id ∨ op.id < existing.id →
        resolver ⟨path, existing, op⟩ localPeer' = .useBase

/-- The operation meets a conflict in the log, and whichever it meets, it is left out. -/
structure Refuses (resolver : ConflictResolver) (log : PathOpLog) (op : PathOperation) :
    Prop where
  opposed : ∃ existing ∈ log, operationsConflict existing op = true
  leftOut : ∀ existing ∈ log, operationsConflict existing op = true →
    ∀ localPeer, resolver ⟨op.path, existing, op⟩ localPeer = .useBase

section

variable {resolver : ConflictResolver} {localPeer : PublicKey}
  {state : PathOpLog × MergeResult} {op : PathOperation}

/-- A newer operation does not change a refusal. -/
theorem Refuses.resolveOperation (hsteady : Steady resolver) {earlier : PathOperation}
    (h : Refuses resolver state.1 earlier) (hlt : earlier.id < op.id) :
    Refuses resolver (resolveOperation resolver localPeer state op).1 earlier := by
  obtain ⟨base, hbase, hconflict⟩ := h.opposed
  refine ⟨⟨base, mem_resolveOperation_of_mem resolver localPeer hbase, hconflict⟩, ?_⟩
  intro existing hexisting hopposed peer
  rcases id_eq_of_mem_resolveOperation resolver localPeer hexisting with hold | hid
  · exact h.leftOut existing hold hopposed peer
  · exact hsteady.upward _ base _ _ peer _ (h.leftOut base hbase hconflict peer)
      (Or.inr (hid ▸ hlt))

end

end PathOpLog

end JaxFs

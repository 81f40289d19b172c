import Mathlib.Data.List.Basic
import Mathlib.Data.Set.Insert
import Mathlib.Tactic

/-!
# Histories of events

A history is a list of events each of which is allowed by the set of those before
it.  When an event only needs the events it follows, neighbours that do not follow
each other can be exchanged, and any set of events that is closed under what follows
can be postponed to the end of the history.
-/

/-- Each event is allowed by those before it, after the given past. -/
def AllowedFrom {α : Type*} (allows : Set α → α → Prop) : Set α → List α → Prop
  | _, [] => True
  | past, a :: rest => allows past a ∧ AllowedFrom allows (insert a past) rest

/-- An event that is allowed after another one it does not follow is allowed without
it, and the other one is still allowed after it. -/
structure IndependentUnless {α : Type*} (allows : Set α → α → Prop)
    (follows : α → α → Prop) : Prop where
  drop : ∀ {past a b}, allows (insert a past) b → ¬ follows a b → allows past b
  keep : ∀ {past a b}, allows past a → allows (insert a past) b →
    allows (insert b past) a

namespace AllowedFrom

variable {α : Type*} {allows : Set α → α → Prop} {follows : α → α → Prop}
  {past : Set α}

theorem append_iff {l l' : List α} :
    AllowedFrom allows past (l ++ l') ↔
      AllowedFrom allows past l ∧ AllowedFrom allows (past ∪ {x | x ∈ l}) l' := by
  induction l generalizing past with
  | nil => simp [AllowedFrom]
  | cons a rest ih =>
      have hpast : insert a past ∪ {x | x ∈ rest} = past ∪ {x | x ∈ a :: rest} := by
        ext x
        simp only [Set.mem_union, Set.mem_insert_iff, Set.mem_ofPred_eq, List.mem_cons]
        tauto
      rw [List.cons_append, AllowedFrom, AllowedFrom, ih, hpast, and_assoc]

theorem allows_of_append_cons {l l' : List α} {a : α}
    (h : AllowedFrom allows past (l ++ a :: l')) : allows (past ∪ {x | x ∈ l}) a :=
  (append_iff.mp h).2.1

section

variable (hindependent : IndependentUnless allows follows)

include hindependent

theorem swap {a b : α} {rest : List α}
    (h : AllowedFrom allows past (a :: b :: rest)) (hnot : ¬ follows a b) :
    AllowedFrom allows past (b :: a :: rest) := by
  obtain ⟨ha, hb, hrest⟩ := h
  refine ⟨hindependent.drop hb hnot, hindependent.keep ha hb, ?_⟩
  rw [Set.insert_comm]
  exact hrest

/-- An event moves behind all those that do not follow it. -/
theorem move {a : α} {l l' : List α} (h : AllowedFrom allows past (a :: (l ++ l')))
    (hnot : ∀ b ∈ l, ¬ follows a b) : AllowedFrom allows past (l ++ a :: l') := by
  induction l generalizing past with
  | nil => exact h
  | cons b rest ih =>
      have hswap := swap hindependent h (hnot b List.mem_cons_self)
      exact ⟨hswap.1, ih hswap.2 (fun x hx => hnot x (List.mem_cons_of_mem _ hx))⟩

/-- The late events go to the end, in their old order. -/
theorem postpone {late : α → Prop} [DecidablePred late] {l : List α}
    (hclosed : ∀ a ∈ l, ∀ b ∈ l, late a → follows a b → late b)
    (h : AllowedFrom allows past l) :
    AllowedFrom allows past
      (l.filter (fun a => decide (¬ late a)) ++ l.filter (fun a => decide (late a))) := by
  induction l generalizing past with
  | nil => exact h
  | cons a rest ih =>
      have hrest := ih (fun b hb c hc => hclosed b (List.mem_cons_of_mem a hb) c
        (List.mem_cons_of_mem a hc)) h.2
      by_cases hlate : late a
      · rw [List.filter_cons_of_neg (by simpa using hlate),
          List.filter_cons_of_pos (by simpa using hlate)]
        refine move hindependent ⟨h.1, hrest⟩ ?_
        intro b hb hfollows
        obtain ⟨hmem, hearly⟩ := List.mem_filter.mp hb
        exact of_decide_eq_true hearly (hclosed a List.mem_cons_self b
          (List.mem_cons_of_mem a hmem) hlate hfollows)
      · rw [List.filter_cons_of_pos (by simpa using hlate),
          List.filter_cons_of_neg (by simpa using hlate)]
        exact ⟨h.1, hrest⟩

end

/-- Events that no past allows twice occur once. -/
theorem nodup {l : List α} (hfresh : ∀ past a, a ∈ past → ¬ allows past a)
    (h : AllowedFrom allows past l) : l.Nodup ∧ ∀ a ∈ l, a ∉ past := by
  induction l generalizing past with
  | nil => simp
  | cons a rest ih =>
      obtain ⟨hnodup, hpast⟩ := ih h.2
      constructor
      · refine List.nodup_cons.mpr ⟨?_, hnodup⟩
        intro hmem
        exact hpast a hmem (Set.mem_insert a past)
      · intro b hb
        rcases List.mem_cons.mp hb with rfl | hb
        · exact fun hin => hfresh past b hin h.1
        · exact fun hin => hpast b hb (Set.mem_insert_of_mem a hin)

end AllowedFrom

import Mathlib.Tactic

/-!
# Chains that are read backwards

Every element names at most one earlier element, and reading it may fail.  The elements
from one on back to the first form its chain.  A chain is determined by its start, so two
chains that share an element share all that is older, and the newest shared element is the
same from both sides.
-/

/-- The chain of an element, newest first; every element of it can be read. -/
inductive ChainFrom {α : Type*} (next : α → Option (Option α)) : α → List α → Prop
  | first {a : α} (h : next a = some none) : ChainFrom next a [a]
  | back {a b : α} {older : List α} (h : next a = some (some b))
      (holder : ChainFrom next b older) : ChainFrom next a (a :: older)

/-- The second element is reached from the first in one step back or more. -/
def Older {α : Type*} (next : α → Option (Option α)) (a b : α) : Prop :=
  Relation.TransGen (fun x y => next x = some (some y)) a b

section

variable {α : Type*} {next : α → Option (Option α)} {a b c : α} {l l' : List α}

namespace ChainFrom

theorem head_mem (h : ChainFrom next a l) : a ∈ l := by
  cases h <;> simp

theorem unique (h : ChainFrom next a l) (h' : ChainFrom next a l') : l = l' := by
  induction h generalizing l' with
  | first hfirst =>
      cases h' with
      | first => rfl
      | back hback => simp [hfirst] at hback
  | back hback _ ih =>
      cases h' with
      | first hfirst => simp [hfirst] at hback
      | back hback' holder =>
          rw [hback] at hback'
          obtain rfl := Option.some.inj (Option.some.inj hback')
          rw [ih holder]

/-- What is older than an element is the rest of its chain. -/
theorem older_of_mem (h : ChainFrom next a (a :: l)) (hb : b ∈ l) : Older next a b := by
  generalize hchain : a :: l = chain at h
  induction h generalizing l with
  | first =>
      cases hchain
      contradiction
  | @back a next' rest hback holder ih =>
      cases hchain
      have hstep : Older next a next' := Relation.TransGen.single hback
      cases holder with
      | first =>
          rw [List.mem_singleton] at hb
          rwa [hb]
      | back hnext hrest =>
          rcases List.mem_cons.mp hb with hhead | htail
          · rwa [hhead]
          · exact hstep.trans (ih htail rfl)

/-- An element of a chain begins the rest of it. -/
theorem split (h : ChainFrom next a l) {newer older : List α} (hsplit : l = newer ++ b :: older) :
    ChainFrom next b (b :: older) := by
  induction h generalizing newer with
  | first hfirst =>
      cases newer with
      | nil =>
          cases hsplit
          exact .first hfirst
      | cons d rest => simp at hsplit
  | back hback holder ih =>
      cases newer with
      | nil =>
          cases hsplit
          exact .back hback holder
      | cons d rest => exact ih (List.cons.inj hsplit).2

theorem mem_of_older (h : ChainFrom next a l) (hb : b ∈ l) (hc : Older next b c) : c ∈ l := by
  have hstep : ∀ {x y}, x ∈ l → next x = some (some y) → y ∈ l := by
    intro x y hx hxy
    obtain ⟨newer, older, hsplit⟩ := List.mem_iff_append.mp hx
    cases h.split hsplit with
    | first hfirst => simp [hfirst] at hxy
    | back hback holder =>
        rw [hback] at hxy
        obtain rfl := Option.some.inj (Option.some.inj hxy)
        rw [hsplit]
        simp [holder.head_mem]
  induction hc with
  | single hlast => exact hstep hb hlast
  | tail _ hlast ih => exact hstep ih hlast

/-- A finite chain does not come back to an element. -/
theorem not_older_self (h : ChainFrom next a l) (hb : b ∈ l) : ¬ Older next b b := by
  intro hcycle
  obtain ⟨newer, older, hsplit⟩ := List.mem_iff_append.mp hb
  have hchain := h.split hsplit
  -- the step back from `b` leads to a chain that holds `b` again
  cases hchain with
  | first hfirst =>
      obtain ⟨d, hstep, _⟩ := Relation.TransGen.head'_iff.mp hcycle
      simp [hfirst] at hstep
  | @back _ d _ hback holder =>
      have hagain : b ∈ older := by
        obtain ⟨d', hstep, hrest⟩ := Relation.TransGen.head'_iff.mp hcycle
        rw [hback] at hstep
        obtain rfl := Option.some.inj (Option.some.inj hstep)
        rcases Relation.reflTransGen_iff_eq_or_transGen.mp hrest with heq | hlater
        · rw [heq]
          exact holder.head_mem
        · exact holder.mem_of_older holder.head_mem hlater
      obtain ⟨newer', older', hsplit'⟩ := List.mem_iff_append.mp hagain
      have hsame := (ChainFrom.back hback holder).unique (holder.split hsplit')
      have hlength := congrArg List.length (List.cons.inj hsame).2
      have hlonger := congrArg List.length hsplit'
      simp at hlonger
      omega

section

variable [DecidableEq α]

/-- The newest element of the second chain that is on the first. -/
def newestShared (l l' : List α) : Option α := l'.find? (fun x => decide (x ∈ l))

theorem newestShared_eq_some (h : newestShared l l' = some a) :
    a ∈ l ∧ ∃ newer older, l' = newer ++ a :: older ∧ ∀ x ∈ newer, x ∉ l := by
  unfold newestShared at h
  obtain ⟨hmem, newer, older, hsplit, hnewer⟩ := List.find?_eq_some_iff_append.mp h
  exact ⟨by simpa using hmem, newer, older, hsplit, by simpa using hnewer⟩

theorem newestShared_isSome_iff :
    (newestShared l l').isSome = true ↔ ∃ x, x ∈ l ∧ x ∈ l' := by
  simp [newestShared, and_comm]

/-- Every other shared element is older than the newest. -/
theorem older_of_newestShared (h' : ChainFrom next b l') (hfound : newestShared l l' = some a)
    (hc : c ∈ l) (hc' : c ∈ l') (hne : c ≠ a) : Older next a c := by
  obtain ⟨_, newer, older, hsplit, hnewer⟩ := newestShared_eq_some hfound
  have hrest : c ∈ older := by
    rw [hsplit] at hc'
    simp only [List.mem_append, List.mem_cons] at hc'
    rcases hc' with hmem | heq | hmem
    · exact absurd hc (hnewer c hmem)
    · exact absurd heq hne
    · exact hmem
  exact older_of_mem (h'.split hsplit) hrest

/-- The newest shared element is the same from both sides. -/
theorem newestShared_comm (h : ChainFrom next a l) (h' : ChainFrom next b l') :
    newestShared l l' = newestShared l' l := by
  cases hfound : newestShared l l' with
  | none =>
      have hnone : ¬ ∃ x, x ∈ l ∧ x ∈ l' := by
        rw [← newestShared_isSome_iff, hfound]
        simp
      cases hfound' : newestShared l' l with
      | none => rfl
      | some x =>
          obtain ⟨hx, newer, older, hsplit, _⟩ := newestShared_eq_some hfound'
          exact absurd ⟨x, by simp [hsplit], hx⟩ hnone
  | some x =>
      obtain ⟨hx, newer, older, hsplit, _⟩ := newestShared_eq_some hfound
      have hx' : x ∈ l' := by simp [hsplit]
      have hsome : (newestShared l' l).isSome = true :=
        newestShared_isSome_iff.mpr ⟨x, hx', hx⟩
      obtain ⟨y, hfound'⟩ := Option.isSome_iff_exists.mp hsome
      obtain ⟨hy', newer', older', hsplit', _⟩ := newestShared_eq_some hfound'
      have hy : y ∈ l := by simp [hsplit']
      rw [hfound', Option.some.injEq]
      by_contra hne
      have hxy := older_of_newestShared h' hfound hy hy' (Ne.symm hne)
      have hyx := older_of_newestShared h hfound' hx' hx hne
      exact not_older_self h hx (hxy.trans hyx)

end

end ChainFrom

end

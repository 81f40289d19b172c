import Mathlib.Tactic

/-!
# Resources with one owner each

What is alive is owned, by one owner, and an owner holds at most one resource.  An owner can
acquire a new resource, give up the one it holds, and hand it over to another owner, who
gives up the one it had.
-/

/-- Who holds which resource: an owner holds live resources only, no two owners hold the same
one, and every live one is held. -/
structure Owns {ι ρ : Type*} (holds : ι → Option ρ) (alive : ρ → Prop) : Prop where
  live : ∀ owner resource, holds owner = some resource → alive resource
  unique : ∀ owner owner' resource, holds owner = some resource →
    holds owner' = some resource → owner = owner'
  owned : ∀ resource, alive resource → ∃ owner, holds owner = some resource

namespace Owns

variable {ι ρ : Type*} {holds holds' : ι → Option ρ} {alive alive' : ρ → Prop} {owner owner' : ι}

/-- Nothing is alive when nobody holds anything. -/
theorem not_alive (h : Owns holds alive) (hnone : ∀ owner, holds owner = none)
    (resource : ρ) : ¬ alive resource := by
  intro halive
  obtain ⟨owner, howner⟩ := h.owned resource halive
  rw [hnone owner] at howner
  contradiction

theorem congr (h : Owns holds alive) (hholds : ∀ owner, holds' owner = holds owner)
    (halive : ∀ resource, alive' resource ↔ alive resource) : Owns holds' alive' := by
  obtain rfl : holds' = holds := funext hholds
  obtain rfl : alive' = alive := funext (fun resource => propext (halive resource))
  exact h

/-- An owner of nothing acquires a new resource. -/
theorem acquire {resource : ρ} (h : Owns holds alive) (hnew : ¬ alive resource)
    (hnone : holds owner = none) (howner : holds' owner = some resource)
    (hothers : ∀ other, other ≠ owner → holds' other = holds other)
    (halive : ∀ other, alive' other ↔ alive other ∨ other = resource) : Owns holds' alive' := by
  have hcases : ∀ other held, holds' other = some held →
      (other = owner ∧ held = resource) ∨ (other ≠ owner ∧ holds other = some held) := by
    intro other held hheld
    by_cases hother : other = owner
    · subst hother
      rw [howner] at hheld
      exact Or.inl ⟨rfl, (Option.some.inj hheld).symm⟩
    · rw [hothers other hother] at hheld
      exact Or.inr ⟨hother, hheld⟩
  constructor
  · intro other held hheld
    rw [halive]
    rcases hcases other held hheld with ⟨-, rfl⟩ | ⟨-, hheld⟩
    · exact Or.inr rfl
    · exact Or.inl (h.live other held hheld)
  · intro other other' held hheld hheld'
    rcases hcases other held hheld with ⟨rfl, rfl⟩ | ⟨-, hheld⟩ <;>
      rcases hcases other' held hheld' with ⟨rfl, hnewer⟩ | ⟨-, hheld'⟩
    · rfl
    · exact absurd (h.live other' held hheld') hnew
    · subst hnewer
      exact absurd (h.live other held hheld) hnew
    · exact h.unique other other' held hheld hheld'
  · intro held hheld
    rcases (halive held).mp hheld with hheld | rfl
    · obtain ⟨other, hother⟩ := h.owned held hheld
      refine ⟨other, ?_⟩
      rw [hothers other ?_, hother]
      rintro rfl
      rw [hnone] at hother
      contradiction
    · exact ⟨owner, howner⟩

/-- An owner gives up what it holds. -/
theorem release (h : Owns holds alive) (howner : holds' owner = none)
    (hothers : ∀ other, other ≠ owner → holds' other = holds other)
    (halive : ∀ other, alive' other ↔ alive other ∧ holds owner ≠ some other) :
    Owns holds' alive' := by
  have hcases : ∀ other held, holds' other = some held →
      other ≠ owner ∧ holds other = some held := by
    intro other held hheld
    by_cases hother : other = owner
    · subst hother
      rw [howner] at hheld
      contradiction
    · rw [hothers other hother] at hheld
      exact ⟨hother, hheld⟩
  constructor
  · intro other held hheld
    obtain ⟨hother, hheld⟩ := hcases other held hheld
    rw [halive]
    exact ⟨h.live other held hheld, fun heq => hother (h.unique other owner held hheld heq)⟩
  · intro other other' held hheld hheld'
    exact h.unique other other' held (hcases other held hheld).2 (hcases other' held hheld').2
  · intro held hheld
    obtain ⟨hheld, hnot⟩ := (halive held).mp hheld
    obtain ⟨other, hother⟩ := h.owned held hheld
    refine ⟨other, ?_⟩
    rw [hothers other ?_, hother]
    rintro rfl
    exact hnot hother

/-- An owner hands what it holds over to another one, who gives up what it had. -/
theorem transfer (h : Owns holds alive) (hne : owner ≠ owner')
    (hgiver : holds' owner = none) (htaker : holds' owner' = holds owner)
    (hothers : ∀ other, other ≠ owner → other ≠ owner' → holds' other = holds other)
    (halive : ∀ other, alive' other ↔ alive other ∧ holds owner' ≠ some other) :
    Owns holds' alive' := by
  have hcases : ∀ other held, holds' other = some held →
      (other = owner' ∧ holds owner = some held) ∨
        (other ≠ owner ∧ other ≠ owner' ∧ holds other = some held) := by
    intro other held hheld
    by_cases hother : other = owner
    · subst hother
      rw [hgiver] at hheld
      contradiction
    by_cases hother' : other = owner'
    · subst hother'
      rw [htaker] at hheld
      exact Or.inl ⟨rfl, hheld⟩
    · rw [hothers other hother hother'] at hheld
      exact Or.inr ⟨hother, hother', hheld⟩
  constructor
  · intro other held hheld
    rw [halive]
    rcases hcases other held hheld with ⟨-, hheld⟩ | ⟨-, hother', hheld⟩
    · exact ⟨h.live owner held hheld, fun heq => hne (h.unique owner owner' held hheld heq)⟩
    · exact ⟨h.live other held hheld,
        fun heq => hother' (h.unique other owner' held hheld heq)⟩
  · intro other other' held hheld hheld'
    rcases hcases other held hheld with ⟨rfl, hheld⟩ | ⟨hgave, -, hheld⟩ <;>
      rcases hcases other' held hheld' with ⟨rfl, hheld'⟩ | ⟨hgave', -, hheld'⟩
    · rfl
    · exact absurd (h.unique other' owner held hheld' hheld) hgave'
    · exact absurd (h.unique other owner held hheld hheld') hgave
    · exact h.unique other other' held hheld hheld'
  · intro held hheld
    obtain ⟨hheld, hnot⟩ := (halive held).mp hheld
    obtain ⟨other, hother⟩ := h.owned held hheld
    by_cases hgave : other = owner
    · subst hgave
      exact ⟨owner', htaker.trans hother⟩
    · refine ⟨other, ?_⟩
      rw [hothers other hgave ?_, hother]
      rintro rfl
      exact hnot hother

end Owns

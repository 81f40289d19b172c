import Mathlib.Data.List.Basic
import Mathlib.Tactic

/-!
# Folds that remember what they have seen

Induction over a fold from the left.  The invariant speaks about the items seen so far,
each of which is related to every later one.
-/

namespace JaxFs

section

variable {α β : Type*} {R : α → α → Prop} {motive : List α → β → Prop} {items : List α}

/-- An item of the list and what stands before it. -/
theorem before_of_split {seen rest : List α} {a : α} (hsorted : items.Pairwise R)
    (hsplit : seen ++ a :: rest = items) : a ∈ items ∧ ∀ earlier ∈ seen, R earlier a := by
  subst hsplit
  rw [List.pairwise_append] at hsorted
  exact ⟨by simp, fun earlier hearlier => hsorted.2.2 earlier hearlier a List.mem_cons_self⟩

/-- What holds at the start and is kept by every item holds at the end. -/
theorem foldl_seen {f : β → α → β} {start : β} (hsorted : items.Pairwise R)
    (init : motive [] start)
    (step : ∀ seen a b, a ∈ items → (∀ earlier ∈ seen, R earlier a) → motive seen b →
      motive (seen ++ [a]) (f b a)) :
    motive items (items.foldl f start) := by
  suffices hrun : ∀ rest seen b, seen ++ rest = items → motive seen b →
      motive items (rest.foldl f b) from hrun items [] start rfl init
  intro rest
  induction rest with
  | nil =>
      intro seen b hsplit hseen
      rw [List.append_nil] at hsplit
      exact hsplit ▸ hseen
  | cons a rest ih =>
      intro seen b hsplit hseen
      obtain ⟨hmem, hbefore⟩ := before_of_split hsorted hsplit
      exact ih (seen ++ [a]) (f b a) (by simpa using hsplit) (step seen a b hmem hbefore hseen)

/-- A fold that may stop has the invariant if it comes to an end. -/
theorem foldlM_seen {f : β → α → Option β} {start result : β} (hsorted : items.Pairwise R)
    (init : motive [] start)
    (step : ∀ seen a b b', a ∈ items → (∀ earlier ∈ seen, R earlier a) → motive seen b →
      f b a = some b' → motive (seen ++ [a]) b')
    (hresult : items.foldlM f start = some result) : motive items result := by
  suffices hrun : ∀ rest seen b, seen ++ rest = items → motive seen b →
      rest.foldlM f b = some result → motive items result from
    hrun items [] start rfl init hresult
  intro rest
  induction rest with
  | nil =>
      intro seen b hsplit hseen hend
      rw [List.append_nil] at hsplit
      rw [List.foldlM_nil] at hend
      cases hend
      exact hsplit ▸ hseen
  | cons a rest ih =>
      intro seen b hsplit hseen hend
      obtain ⟨hmem, hbefore⟩ := before_of_split hsorted hsplit
      rw [List.foldlM_cons] at hend
      obtain ⟨b', hstep, hend⟩ := Option.bind_eq_some_iff.mp hend
      exact ih (seen ++ [a]) b' (by simpa using hsplit)
        (step seen a b b' hmem hbefore hseen hstep) hend

/-- A fold that can always go on comes to an end. -/
theorem exists_foldlM_seen {f : β → α → Option β} {start : β} (hsorted : items.Pairwise R)
    (init : motive [] start)
    (step : ∀ seen a b, a ∈ items → (∀ earlier ∈ seen, R earlier a) → motive seen b →
      ∃ b', f b a = some b' ∧ motive (seen ++ [a]) b') :
    ∃ result, items.foldlM f start = some result ∧ motive items result := by
  suffices hrun : ∀ rest seen b, seen ++ rest = items → motive seen b →
      ∃ result, rest.foldlM f b = some result ∧ motive items result from
    hrun items [] start rfl init
  intro rest
  induction rest with
  | nil =>
      intro seen b hsplit hseen
      rw [List.append_nil] at hsplit
      exact ⟨b, rfl, hsplit ▸ hseen⟩
  | cons a rest ih =>
      intro seen b hsplit hseen
      obtain ⟨hmem, hbefore⟩ := before_of_split hsorted hsplit
      obtain ⟨b', hstep, hmotive⟩ := step seen a b hmem hbefore hseen
      obtain ⟨result, hend, hresult⟩ := ih (seen ++ [a]) b' (by simpa using hsplit) hmotive
      refine ⟨result, ?_, hresult⟩
      rw [List.foldlM_cons, hstep]
      exact hend

theorem foldlM_mono {f g : β → α → Option β} (h : ∀ b a b', f b a = some b' → g b a = some b')
    {start result : β} (hresult : items.foldlM f start = some result) :
    items.foldlM g start = some result := by
  induction items generalizing start with
  | nil => exact hresult
  | cons a rest ih =>
      rw [List.foldlM_cons] at hresult ⊢
      obtain ⟨b', hstep, hend⟩ := Option.bind_eq_some_iff.mp hresult
      rw [h start a b' hstep]
      exact ih hend

end

/-! ## The greatest of some values -/

theorem foldl_max_le {values : List ℕ} {start bound : ℕ} (hstart : start ≤ bound)
    (h : ∀ value ∈ values, value ≤ bound) : values.foldl max start ≤ bound := by
  induction values generalizing start with
  | nil => exact hstart
  | cons first rest ih =>
      rw [List.foldl_cons]
      exact ih (max_le hstart (h first List.mem_cons_self))
        (fun value hvalue => h value (List.mem_cons_of_mem _ hvalue))

theorem le_foldl_max {values : List ℕ} {start value : ℕ}
    (h : value ∈ values ∨ value ≤ start) : value ≤ values.foldl max start := by
  induction values generalizing start with
  | nil =>
      rcases h with hmem | hle
      · contradiction
      · exact hle
  | cons first rest ih =>
      rw [List.foldl_cons]
      apply ih
      rcases h with hmem | hle
      · rcases List.mem_cons.mp hmem with rfl | hrest
        · exact Or.inr (le_max_right _ _)
        · exact Or.inl hrest
      · exact Or.inr (hle.trans (le_max_left _ _))

end JaxFs

import Mathlib.Tactic

/-!
# Unsigned arithmetic

Results of a fixed width.  A build with overflow checks panics when a result does not fit,
and a build without them keeps the low bits.
-/

namespace JaxFs

/-- `none` is a panic. -/
def unsigned (checks : Bool) (width value : ℕ) : Option ℕ :=
  if value < 2 ^ width then some value
  else if checks then none else some (value % 2 ^ width)

section

variable {checks : Bool} {width value result : ℕ}

theorem unsigned_of_lt (h : value < 2 ^ width) : unsigned checks width value = some value :=
  if_pos h

@[simp] theorem unsigned_false : unsigned false width value = some (value % 2 ^ width) := by
  unfold unsigned
  by_cases h : value < 2 ^ width
  · rw [if_pos h, Nat.mod_eq_of_lt h]
  · rw [if_neg h, if_neg Bool.false_ne_true]

theorem unsigned_true_eq_some_iff :
    unsigned true width value = some result ↔ value < 2 ^ width ∧ value = result := by
  unfold unsigned
  by_cases h : value < 2 ^ width <;> simp [h]

theorem unsigned_true_bind_iff {β : Type*} {f : ℕ → Option β} {b : β} :
    (unsigned true width value).bind f = some b ↔ value < 2 ^ width ∧ f value = some b := by
  rw [Option.bind_eq_some_iff]
  constructor
  · rintro ⟨result, hresult, hf⟩
    obtain ⟨hlt, rfl⟩ := unsigned_true_eq_some_iff.mp hresult
    exact ⟨hlt, hf⟩
  · rintro ⟨hlt, hf⟩
    exact ⟨value, unsigned_of_lt hlt, hf⟩

/-- What the checks let pass is the same without them. -/
theorem unsigned_of_true (h : unsigned true width value = some result) :
    unsigned checks width value = some result := by
  obtain ⟨hlt, rfl⟩ := unsigned_true_eq_some_iff.mp h
  exact unsigned_of_lt hlt

end

end JaxFs

import Mathlib.Logic.Relation
import Mathlib.Tactic

/-!
# Programs that keep their state on failure

Rules for `EStateM`, the monad of the effectful code: a run ends in a result and
a state, and a failed run keeps the state it had reached.  The inversion rules
peel a sequence apart; `Preserves` carries a relation between the first and the
last state of a run through every construct, whatever the result.
-/

/-- A pure sequence that succeeds. -/
theorem Except.bind_eq_ok_iff {ε α β : Type} {x : Except ε α} {f : α → Except ε β} {b : β} :
    x >>= f = .ok b ↔ ∃ a, x = .ok a ∧ f a = .ok b := by
  cases x with
  | error e => simp [bind, Except.bind]
  | ok a => simp [bind, Except.bind]

theorem Except.eq_ok_of_toOption {ε α : Type} {x : Except ε α} {a : α}
    (h : x.toOption = some a) : x = .ok a := by
  cases x with
  | error e => contradiction
  | ok b =>
      cases h
      rfl

namespace EStateM

variable {ε σ τ α β : Type}

/-- The state in which a run ends. -/
def Result.state : Result ε σ α → σ
  | .ok _ s => s
  | .error _ s => s

@[simp] theorem Result.state_ok (a : α) (s : σ) :
    (Result.ok a s : Result ε σ α).state = s := rfl

@[simp] theorem Result.state_error (e : ε) (s : σ) :
    (Result.error e s : Result ε σ α).state = s := rfl

/-- A test of the last state of a run that succeeds. -/
def Result.okAnd (r : Result ε σ α) (test : σ → Bool) : Bool :=
  match r with
  | .ok _ s => test s
  | .error _ _ => false

theorem Result.exists_of_okAnd {r : Result ε σ α} {test : σ → Bool}
    (h : r.okAnd test = true) : ∃ a s, r = .ok a s ∧ test s = true := by
  cases r with
  | ok a s => exact ⟨a, s, rfl, h⟩
  | error e s => simp [okAnd] at h

/-- A test of the value and the last state of a run that succeeds. -/
def Result.okWith (r : Result ε σ α) (test : α → σ → Bool) : Bool :=
  match r with
  | .ok a s => test a s
  | .error _ _ => false

theorem Result.exists_of_okWith {r : Result ε σ α} {test : α → σ → Bool}
    (h : r.okWith test = true) : ∃ a s, r = .ok a s ∧ test a s = true := by
  cases r with
  | ok a s => exact ⟨a, s, rfl, h⟩
  | error e s => simp [okWith] at h

/-- A test of the error and the last state of a run that fails. -/
def Result.errorAnd (r : Result ε σ α) (test : ε → σ → Bool) : Bool :=
  match r with
  | .ok _ _ => false
  | .error e s => test e s

theorem Result.exists_of_errorAnd {r : Result ε σ α} {test : ε → σ → Bool}
    (h : r.errorAnd test = true) : ∃ e s, r = .error e s ∧ test e s = true := by
  cases r with
  | ok a s => simp [errorAnd] at h
  | error e s => exact ⟨e, s, rfl, h⟩

/-- Run a pure computation that may fail. -/
def ofExcept (x : Except ε α) : EStateM ε σ α :=
  match x with
  | .ok a => pure a
  | .error e => throw e

/-- Run a program on one part of a larger state. -/
def zoom (view : τ → σ) (update : τ → σ → τ) (x : EStateM ε σ α) : EStateM ε τ α :=
  fun t =>
    match x.run (view t) with
    | .ok a s => .ok a (update t s)
    | .error e s => .error e (update t s)

/-! ## Inversion -/

@[simp] theorem run_ofExcept_ok (a : α) (s : σ) :
    (ofExcept (.ok a) : EStateM ε σ α).run s = .ok a s := rfl

@[simp] theorem run_ofExcept_error (e : ε) (s : σ) :
    (ofExcept (.error e) : EStateM ε σ α).run s = .error e s := rfl

theorem run_ofExcept_eq_ok_iff {x : Except ε α} {a : α} {s s' : σ} :
    (ofExcept x).run s = .ok a s' ↔ x = .ok a ∧ s' = s := by
  cases x with
  | error e => simp
  | ok b => simp [eq_comm]

theorem run_get_bind (f : σ → EStateM ε σ β) (s : σ) :
    ((get : EStateM ε σ σ) >>= f).run s = (f s).run s := rfl

theorem run_bind_of_ok {x : EStateM ε σ α} {f : α → EStateM ε σ β} {s s' : σ} {a : α}
    (h : x.run s = .ok a s') : (x >>= f).run s = (f a).run s' := by
  rw [run_bind, h]

theorem run_bind_of_error {x : EStateM ε σ α} {f : α → EStateM ε σ β} {s s' : σ}
    {e : ε} (h : x.run s = .error e s') : (x >>= f).run s = .error e s' := by
  rw [run_bind, h]

/-- What holds wherever the first part ends, or after the second part, holds at the end. -/
theorem state_bind {x : EStateM ε σ α} {f : α → EStateM ε σ β} {s : σ} {post : σ → Prop}
    (herror : ∀ e s', x.run s = .error e s' → post s')
    (hok : ∀ a s', x.run s = .ok a s' → post ((f a).run s').state) :
    post ((x >>= f).run s).state := by
  cases h : x.run s with
  | ok a s' =>
      rw [run_bind_of_ok h]
      exact hok a s' h
  | error e s' =>
      rw [run_bind_of_error h]
      exact herror e s' h

theorem run_bind_eq_ok_iff {x : EStateM ε σ α} {f : α → EStateM ε σ β} {s s'' : σ}
    {b : β} :
    (x >>= f).run s = .ok b s'' ↔
      ∃ a s', x.run s = .ok a s' ∧ (f a).run s' = .ok b s'' := by
  cases h : x.run s with
  | ok a s' =>
      rw [run_bind_of_ok h]
      simp
  | error e s' =>
      rw [run_bind_of_error h]
      simp

/-- A run whose value is dropped. -/
theorem exists_of_run_discard {x : EStateM ε σ α} {s s' : σ} {u : Unit}
    (h : (do let _ ← x : EStateM ε σ Unit).run s = .ok u s') : ∃ a, x.run s = .ok a s' := by
  obtain ⟨a, s'', ha, hend⟩ := run_bind_eq_ok_iff.mp h
  cases hend
  exact ⟨a, ha⟩

theorem run_zoom (view : τ → σ) (update : τ → σ → τ) (x : EStateM ε σ α) (t : τ) :
    (zoom view update x).run t =
      match x.run (view t) with
      | .ok a s => .ok a (update t s)
      | .error e s => .error e (update t s) := rfl

theorem run_zoom_of_ok {view : τ → σ} {update : τ → σ → τ} {x : EStateM ε σ α}
    {t : τ} {a : α} {s : σ} (h : x.run (view t) = .ok a s) :
    (zoom view update x).run t = .ok a (update t s) := by
  rw [run_zoom, h]

theorem run_zoom_of_error {view : τ → σ} {update : τ → σ → τ} {x : EStateM ε σ α}
    {t : τ} {e : ε} {s : σ} (h : x.run (view t) = .error e s) :
    (zoom view update x).run t = .error e (update t s) := by
  rw [run_zoom, h]

/-! ## Relations between the first and the last state -/

/-- Whatever the result, the last state is related to the first. -/
def Preserves (rel : σ → σ → Prop) (x : EStateM ε σ α) : Prop :=
  ∀ s, rel s (x.run s).state

section

variable {rel : σ → σ → Prop}

theorem Preserves.of_ok {x : EStateM ε σ α} (hx : Preserves rel x) {s s' : σ} {a : α}
    (h : x.run s = .ok a s') : rel s s' := by
  have hrel := hx s
  rw [h] at hrel
  exact hrel

theorem Preserves.of_error {x : EStateM ε σ α} (hx : Preserves rel x) {s s' : σ} {e : ε}
    (h : x.run s = .error e s') : rel s s' := by
  have hrel := hx s
  rw [h] at hrel
  exact hrel

theorem Preserves.bind {x : EStateM ε σ α} {f : α → EStateM ε σ β}
    (htrans : ∀ s s' s'', rel s s' → rel s' s'' → rel s s'')
    (hx : Preserves rel x) (hf : ∀ a, Preserves rel (f a)) :
    Preserves rel (x >>= f) := by
  intro s
  have hfirst := hx s
  cases h : x.run s with
  | ok a s' =>
      rw [h] at hfirst
      rw [run_bind_of_ok h]
      exact htrans s s' _ hfirst (hf a s')
  | error e s' =>
      rw [h] at hfirst
      rw [run_bind_of_error h]
      exact hfirst

theorem Preserves.pure (hrefl : ∀ s, rel s s) (a : α) :
    Preserves rel (pure a : EStateM ε σ α) := hrefl

theorem Preserves.ofExcept (hrefl : ∀ s, rel s s) (x : Except ε α) :
    Preserves rel (ofExcept x) := by
  intro s
  cases x with
  | ok a => exact hrefl s
  | error e => exact hrefl s

theorem Preserves.zoom {view : τ → σ} {update : τ → σ → τ} {x : EStateM ε σ α}
    {rel' : τ → τ → Prop} (hx : Preserves rel x)
    (hrel : ∀ t s, rel (view t) s → rel' t (update t s)) :
    Preserves rel' (zoom view update x) := by
  intro t
  have h := hx (view t)
  cases hrun : x.run (view t) with
  | ok a s =>
      rw [hrun] at h
      rw [run_zoom_of_ok hrun]
      exact hrel t s h
  | error e s =>
      rw [hrun] at h
      rw [run_zoom_of_error hrun]
      exact hrel t s h

end

end EStateM

import JaxFs.Runs

/-!
# A history with readers

A history is appended to in one place, and any number of readers copy it from its
beginning on, one entry at a time and each in its own time.  All that is known of a
reader is how many entries it has.  A log is compared with the history through the
entries it holds: it covers the history up to some length when it has exactly the
entries below that length.
-/

structure ReplicatedHistory (ι α : Type*) where
  history : List α
  known : ι → ℕ

namespace ReplicatedHistory

variable {ι α : Type*}

inductive Event (ι α : Type*) where
  | publish (entry : α)
  | copy (reader : ι)

/-- No reader is ahead of the history. -/
def Sound (state : ReplicatedHistory ι α) : Prop :=
  ∀ reader, state.known reader ≤ state.history.length

def lag (state : ReplicatedHistory ι α) (reader : ι) : ℕ :=
  state.history.length - state.known reader

/-! ## Logs beside a history -/

/-- The log has the entries of the history below the given length and no others. -/
def Covers (log : ℕ → α → Prop) (history : List α) (known : ℕ) : Prop :=
  ∀ place entry, log place entry ↔ place < known ∧ history[place]? = some entry

section

variable {log log' : ℕ → α → Prop} {history : List α} {known : ℕ}

theorem covers_empty (hempty : ∀ place entry, ¬ log place entry) (history : List α) :
    Covers log history 0 := by
  intro place entry
  simp [hempty]

theorem Covers.congr (h : Covers log history known)
    (hsame : ∀ place entry, log' place entry ↔ log place entry) :
    Covers log' history known :=
  fun place entry => (hsame place entry).trans (h place entry)

/-- What is published later does not show in a log that has not copied it. -/
theorem Covers.publish (h : Covers log history known) (hknown : known ≤ history.length)
    (entry : α) : Covers log (history ++ [entry]) known := by
  intro place other
  rw [h place other]
  constructor
  · rintro ⟨hplace, hentry⟩
    rw [List.getElem?_append_left (by omega)]
    exact ⟨hplace, hentry⟩
  · rintro ⟨hplace, hentry⟩
    rw [List.getElem?_append_left (by omega)] at hentry
    exact ⟨hplace, hentry⟩

/-- The next entry of the history, and nothing else, is added to the log. -/
theorem Covers.copy {entry : α} (h : Covers log history known)
    (hentry : history[known]? = some entry)
    (hgains : ∀ place other,
      log' place other ↔ log place other ∨ (place = known ∧ other = entry)) :
    Covers log' history (known + 1) := by
  intro place other
  rw [hgains, h place other]
  constructor
  · rintro (⟨hplace, hother⟩ | ⟨rfl, rfl⟩)
    · exact ⟨by omega, hother⟩
    · exact ⟨by omega, hentry⟩
  · rintro ⟨hplace, hother⟩
    by_cases heq : place = known
    · subst heq
      rw [hentry] at hother
      exact Or.inr ⟨rfl, (Option.some.inj hother).symm⟩
    · exact Or.inl ⟨by omega, hother⟩

/-- A log with the whole history takes a new entry at its end. -/
theorem Covers.extend {entry : α} (h : Covers log history history.length)
    (hgains : ∀ place other,
      log' place other ↔ log place other ∨ (place = history.length ∧ other = entry)) :
    Covers log' (history ++ [entry]) (history ++ [entry]).length := by
  have hpublished := h.publish le_rfl entry
  have hcopied := hpublished.copy (List.getElem?_concat_length) hgains
  rw [List.length_append, List.length_singleton]
  exact hcopied

/-- What a log that grows towards the history can gain is its next entry. -/
theorem Covers.grows (h : Covers log history known) (hknown : known ≤ history.length)
    (hkept : ∀ place entry, log place entry → log' place entry)
    (hadded : ∀ place entry, log' place entry → log place entry ∨
      (place ≤ known ∧ history[place]? = some entry)) :
    Covers log' history known ∨ (known < history.length ∧ Covers log' history (known + 1)) := by
  by_cases hnext : ∃ entry, log' known entry
  · obtain ⟨entry, hentry⟩ := hnext
    have hplace : history[known]? = some entry := by
      rcases hadded known entry hentry with hold | ⟨-, hplace⟩
      · exact ((h known entry).mp hold).2
      · exact hplace
    right
    refine ⟨(List.getElem?_eq_some_iff.mp hplace).1, h.copy hplace ?_⟩
    intro place other
    constructor
    · intro hother
      rcases hadded place other hother with hold | ⟨hle, hfound⟩
      · exact Or.inl hold
      · rcases hle.lt_or_eq with hlt | rfl
        · exact Or.inl ((h place other).mpr ⟨hlt, hfound⟩)
        · rw [hplace] at hfound
          exact Or.inr ⟨rfl, (Option.some.inj hfound).symm⟩
    · rintro (hold | ⟨rfl, rfl⟩)
      · exact hkept place other hold
      · exact hentry
  · left
    apply h.congr
    intro place entry
    refine ⟨fun hentry => ?_, hkept place entry⟩
    rcases hadded place entry hentry with hold | ⟨hle, hfound⟩
    · exact hold
    · rcases hle.lt_or_eq with hlt | rfl
      · exact (h place entry).mpr ⟨hlt, hfound⟩
      · exact absurd ⟨entry, hentry⟩ hnext

/-- Logs beside one history have the same entry wherever both have one. -/
theorem Covers.eq_of_entries {known' : ℕ} (h : Covers log history known)
    (h' : Covers log' history known') {place : ℕ} {entry entry' : α}
    (hentry : log place entry) (hentry' : log' place entry') : entry = entry' := by
  have hfound := ((h place entry).mp hentry).2
  have hfound' := ((h' place entry').mp hentry').2
  rw [hfound] at hfound'
  exact Option.some.inj hfound'

end

/-! ## Steps and runs -/

variable [DecidableEq ι]

/-- One event; a reader that has the whole history copies nothing. -/
def step (state : ReplicatedHistory ι α) : Event ι α → ReplicatedHistory ι α
  | .publish entry => { state with history := state.history ++ [entry] }
  | .copy reader =>
      if state.known reader < state.history.length then
        { state with
          known := Function.update state.known reader (state.known reader + 1) }
      else state

def run (state : ReplicatedHistory ι α) (events : List (Event ι α)) :
    ReplicatedHistory ι α :=
  events.foldl step state

def copies (reader : ι) : List (Event ι α) → ℕ
  | [] => 0
  | .publish _ :: rest => copies reader rest
  | .copy other :: rest => copies reader rest + if other = reader then 1 else 0

theorem copies_append (reader : ι) (events events' : List (Event ι α)) :
    copies reader (events ++ events') = copies reader events + copies reader events' := by
  induction events with
  | nil => simp [copies]
  | cons event rest ih =>
      cases event with
      | publish entry => simp [copies, ih]
      | copy other => simp only [List.cons_append, copies, ih]; omega

theorem run_append (state : ReplicatedHistory ι α) (events events' : List (Event ι α)) :
    state.run (events ++ events') = (state.run events).run events' :=
  List.foldl_append

@[simp] theorem step_publish (state : ReplicatedHistory ι α) (entry : α) :
    state.step (.publish entry) = { state with history := state.history ++ [entry] } := rfl

@[simp] theorem history_step_copy (state : ReplicatedHistory ι α) (reader : ι) :
    (state.step (.copy reader)).history = state.history := by
  simp only [step]
  split_ifs <;> rfl

theorem known_step_copy (state : ReplicatedHistory ι α) (other reader : ι) :
    (state.step (.copy other)).known reader =
      if other = reader ∧ state.known reader < state.history.length then
        state.known reader + 1
      else state.known reader := by
  simp only [step]
  by_cases hsame : other = reader
  · subst hsame
    by_cases hbehind : state.known other < state.history.length
    · simp [hbehind]
    · simp [hbehind]
  · by_cases hbehind : state.known other < state.history.length
    · simp [hbehind, hsame, Ne.symm hsame]
    · simp [hbehind, hsame]

theorem Sound.step {state : ReplicatedHistory ι α} (h : state.Sound) (event : Event ι α) :
    (state.step event).Sound := by
  intro reader
  have hreader := h reader
  cases event with
  | publish entry =>
      simp only [step_publish, List.length_append, List.length_singleton]
      omega
  | copy other =>
      rw [known_step_copy, history_step_copy]
      split_ifs with hcopies
      · exact hcopies.2
      · exact hreader

theorem Sound.run {state : ReplicatedHistory ι α} (h : state.Sound)
    (events : List (Event ι α)) : (state.run events).Sound := by
  induction events generalizing state with
  | nil => exact h
  | cons event rest ih => exact ih (h.step event)

theorem prefix_step (state : ReplicatedHistory ι α) (event : Event ι α) :
    state.history <+: (state.step event).history := by
  cases event with
  | publish entry => exact List.prefix_append _ _
  | copy reader => rw [history_step_copy]

/-- The history only grows at its end. -/
theorem prefix_run (state : ReplicatedHistory ι α) (events : List (Event ι α)) :
    state.history <+: (state.run events).history := by
  induction events generalizing state with
  | nil => exact List.prefix_rfl
  | cons event rest ih => exact (prefix_step state event).trans (ih (state.step event))

/-- A reader does not copy more entries than it takes turns. -/
theorem known_run_le (state : ReplicatedHistory ι α) (events : List (Event ι α))
    (reader : ι) :
    (state.run events).known reader ≤ state.known reader + copies reader events := by
  induction events generalizing state with
  | nil => exact le_rfl
  | cons event rest ih =>
      refine (ih (state.step event)).trans ?_
      cases event with
      | publish entry => exact le_rfl
      | copy other =>
          rw [known_step_copy]
          simp only [copies]
          split_ifs with hcopies hsame
          · omega
          · exact absurd hcopies.1 hsame
          · omega
          · omega

/-- A reader has copied as many entries as it took turns, unless it has come to where the
history ended at the beginning. -/
theorem min_le_known_run (state : ReplicatedHistory ι α) (events : List (Event ι α))
    (reader : ι) :
    min (state.known reader + copies reader events) state.history.length ≤
      (state.run events).known reader := by
  induction events generalizing state with
  | nil => exact min_le_left _ _
  | cons event rest ih =>
      refine le_trans ?_ (ih (state.step event))
      cases event with
      | publish entry =>
          simp only [step_publish, copies, List.length_append, List.length_singleton]
          omega
      | copy other =>
          rw [known_step_copy, history_step_copy]
          simp only [copies]
          split_ifs with hsame hcopies hcopies
          · omega
          · have hdone : ¬ state.known reader < state.history.length :=
              fun hbehind => hcopies ⟨hsame, hbehind⟩
            omega
          · exact absurd hcopies.1 hsame
          · omega

end ReplicatedHistory

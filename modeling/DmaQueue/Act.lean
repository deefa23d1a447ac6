/-
  DmaQueue.Act

  Steps of a machine that changes a state, leaves a record of events and may
  stop with a fault.  An `Act` keeps the state and the events of what happened
  before a fault, so a run that stops can still be looked at.

  `bind_eq_ok_iff` takes a successful sequence of two acts apart into its two
  halves, with the events of the first before those of the second; the other
  lemmas do the same for the single acts.
-/
import DmaQueue.Fault

namespace DmaQueue

/-- What an act leaves behind: its answer or the fault that stopped it, the state reached, and the
events on the way, oldest first. -/
structure Outcome (ε σ α : Type) where
  /-- The answer, or the fault that stopped the act. -/
  result : Except Fault α
  /-- The state reached, also after a fault. -/
  state : σ
  /-- The events on the way, oldest first. -/
  events : List ε

/-- An act on a state of type `σ` with events of type `ε` and answers of type `α`. -/
def Act (ε σ α : Type) : Type :=
  σ → Outcome ε σ α

variable {ε δ σ τ α β : Type}

/-- The same outcome, with `earlier` events before its own. -/
def Outcome.after (earlier : List ε) (o : Outcome ε σ α) : Outcome ε σ α :=
  { o with events := earlier ++ o.events }

namespace Act

/-! ## Building acts -/

/-- Answers `a`: no event, the state stays. -/
def pure (a : α) : Act ε σ α := fun s => ⟨.ok a, s, []⟩

/-- The first act, then the one chosen by its answer; a fault of the first act ends both. -/
def bind (m : Act ε σ α) (next : α → Act ε σ β) : Act ε σ β := fun s =>
  match m s with
  | ⟨.ok a, s', events⟩ => (next a s').after events
  | ⟨.error fault, s', events⟩ => ⟨.error fault, s', events⟩

instance : Monad (Act ε σ) where
  pure := Act.pure
  bind := Act.bind

/-- Answers the state. -/
def get : Act ε σ σ := fun s => ⟨.ok s, s, []⟩

/-- Changes the state by `f`. -/
def modify (f : σ → σ) : Act ε σ Unit := fun s => ⟨.ok (), f s, []⟩

/-- Records one event. -/
def emit (event : ε) : Act ε σ Unit := fun s => ⟨.ok (), s, [event]⟩

/-- Answers a computed value, or stops with its fault. -/
def ofExcept (x : Except Fault α) : Act ε σ α := fun s => ⟨x, s, []⟩

/-- The act on a part of a larger state; the rest of it is untouched. -/
def zoom (part : τ → σ) (put : σ → τ → τ) (m : Act ε σ α) : Act ε τ α := fun t =>
  let o := m (part t)
  ⟨o.result, put o.state t, o.events⟩

/-- The act with each event renamed by `f`. -/
def mapEvents (f : ε → δ) (m : Act ε σ α) : Act δ σ α := fun s =>
  let o := m s
  ⟨o.result, o.state, o.events.map f⟩

/-! ## Taking successful acts apart -/

theorem pure_apply (a : α) (s : σ) : (Pure.pure a : Act ε σ α) s = ⟨.ok a, s, []⟩ := rfl

theorem pure_eq_ok_iff {a b : α} {s s' : σ} {events : List ε} :
    (Pure.pure a : Act ε σ α) s = ⟨.ok b, s', events⟩ ↔ a = b ∧ s = s' ∧ events = [] := by
  simp [pure_apply, eq_comm]

theorem modify_eq_ok_iff {f : σ → σ} {s s' : σ} {events : List ε} :
    (modify f : Act ε σ Unit) s = ⟨.ok (), s', events⟩ ↔ s' = f s ∧ events = [] := by
  simp [modify, eq_comm]

theorem emit_eq_ok_iff {event : ε} {s s' : σ} {events : List ε} :
    (emit event : Act ε σ Unit) s = ⟨.ok (), s', events⟩ ↔ s' = s ∧ events = [event] := by
  simp [emit, eq_comm]

theorem ofExcept_eq_ok_iff {x : Except Fault α} {a : α} {s s' : σ} {events : List ε} :
    (ofExcept x : Act ε σ α) s = ⟨.ok a, s', events⟩ ↔ x = .ok a ∧ s' = s ∧ events = [] := by
  simp [ofExcept, eq_comm]

/-- A sequence succeeds exactly if both halves do; their events stand one after the other. -/
theorem bind_eq_ok_iff {m : Act ε σ α} {next : α → Act ε σ β} {s s'' : σ} {b : β}
    {events : List ε} :
    (m >>= next) s = ⟨.ok b, s'', events⟩ ↔
      ∃ a s' first second, m s = ⟨.ok a, s', first⟩ ∧ next a s' = ⟨.ok b, s'', second⟩ ∧
        events = first ++ second := by
  -- Open the monad's bind down to the definition above.
  change Act.bind m next s = _ ↔ _
  unfold Act.bind
  constructor
  · intro h
    split at h
    · rename_i a s' first hm
      generalize hn : next a s' = o at h
      obtain ⟨result, state, second⟩ := o
      simp only [Outcome.after, Outcome.mk.injEq] at h
      obtain ⟨rfl, rfl, rfl⟩ := h
      exact ⟨a, s', first, second, hm, hn, rfl⟩
    · simp at h
  · rintro ⟨a, s', first, second, hm, hn, rfl⟩
    simp [hm, hn, Outcome.after]

/-- What looks at the state first goes on with it. -/
theorem get_bind_eq_ok_iff {next : σ → Act ε σ β} {s s' : σ} {b : β} {events : List ε} :
    (get >>= next) s = ⟨.ok b, s', events⟩ ↔ next s s = ⟨.ok b, s', events⟩ := Iff.rfl

/-- What changes the state first goes on from the changed one. -/
theorem modify_bind_eq_ok_iff {f : σ → σ} {next : Unit → Act ε σ β} {s s' : σ} {b : β}
    {events : List ε} :
    (modify f >>= next) s = ⟨.ok b, s', events⟩ ↔ next () (f s) = ⟨.ok b, s', events⟩ := Iff.rfl

/-- What records an event first has it before all others. -/
theorem emit_bind_eq_ok_iff {event : ε} {next : Unit → Act ε σ β} {s s' : σ} {b : β}
    {events : List ε} :
    (emit event >>= next) s = ⟨.ok b, s', events⟩ ↔
      ∃ later, next () s = ⟨.ok b, s', later⟩ ∧ events = event :: later := by
  rw [bind_eq_ok_iff]
  constructor
  · rintro ⟨_, t, _, later, hemit, hnext, rfl⟩
    obtain ⟨rfl, rfl⟩ := emit_eq_ok_iff.1 hemit
    exact ⟨later, hnext, rfl⟩
  · rintro ⟨later, hnext, rfl⟩
    exact ⟨(), s, [event], later, rfl, hnext, rfl⟩

/-- An act on a part succeeds exactly if it does so there; the rest is put back around it. -/
theorem zoom_eq_ok_iff {part : τ → σ} {put : σ → τ → τ} {m : Act ε σ α} {t t' : τ} {a : α}
    {events : List ε} :
    zoom part put m t = ⟨.ok a, t', events⟩ ↔
      ∃ s', m (part t) = ⟨.ok a, s', events⟩ ∧ t' = put s' t := by
  unfold zoom
  generalize m (part t) = o
  obtain ⟨result, state, shown⟩ := o
  simp only [Outcome.mk.injEq]
  constructor
  · rintro ⟨rfl, rfl, rfl⟩
    exact ⟨state, ⟨rfl, rfl, rfl⟩, rfl⟩
  · rintro ⟨s', ⟨rfl, rfl, rfl⟩, rfl⟩
    exact ⟨rfl, rfl, rfl⟩

end Act

end DmaQueue

/-
  DmaQueue.Proofs.Act.Failing

  Taking acts apart that may have failed: a sequence fails where its first act
  fails, or where the second fails on what a successful first act leaves.
-/
import DmaQueue.Act

namespace DmaQueue

/-- What a computation answers on a fixed input is settled by evaluating it. -/
instance decidableEqExcept {ρ ω : Type} [DecidableEq ρ] [DecidableEq ω] :
    DecidableEq (Except ρ ω)
  | .ok a, .ok b => decidable_of_iff (a = b) (by rw [Except.ok.injEq])
  | .error e, .error f => decidable_of_iff (e = f) (by rw [Except.error.injEq])
  | .ok _, .error _ => isFalse nofun
  | .error _, .ok _ => isFalse nofun

variable {ε δ σ τ α β : Type}

namespace Outcome

theorem eq_of_result {o : Outcome ε σ α} {x : Except Fault α} (h : o.result = x) :
    o = ⟨x, o.state, o.events⟩ := by
  rw [← h]

theorem eq_of_isOk {o : Outcome ε σ Unit} (h : o.result.isOk = true) :
    o = ⟨.ok (), o.state, o.events⟩ := by
  apply eq_of_result
  cases hresult : o.result with
  | ok => rfl
  | error => simp [hresult, Except.isOk, Except.toBool] at h

@[simp] theorem result_after (earlier : List ε) (o : Outcome ε σ α) :
    (o.after earlier).result = o.result := rfl

/-- The same outcome, with another answer. -/
def map (f : α → β) (o : Outcome ε σ α) : Outcome ε σ β :=
  { o with result := o.result.map f }

@[simp] theorem result_map (f : α → β) (o : Outcome ε σ α) :
    (o.map f).result = o.result.map f := rfl

theorem map_map {γ : Type} (f : α → β) (g : β → γ) (o : Outcome ε σ α) :
    (o.map f).map g = o.map fun a => g (f a) := by
  cases o with
  | mk result state events => cases result <;> rfl

end Outcome

namespace Act

/-! ## Sequences, from the outcome of the first act -/

theorem bind_of_ok {m : Act ε σ α} {next : α → Act ε σ β} {s s' : σ} {a : α} {events : List ε}
    (h : m s = ⟨.ok a, s', events⟩) : (m >>= next) s = (next a s').after events := by
  change Act.bind m next s = _
  unfold Act.bind
  rw [h]

/-- Two successful halves make a successful sequence. -/
theorem bind_ok {m : Act ε σ α} {next : α → Act ε σ β} {s s' s'' : σ} {a : α} {b : β}
    {first second : List ε} (hm : m s = ⟨.ok a, s', first⟩)
    (hnext : next a s' = ⟨.ok b, s'', second⟩) :
    (m >>= next) s = ⟨.ok b, s'', first ++ second⟩ := by
  rw [bind_of_ok hm, hnext]
  rfl

theorem bind_of_error {m : Act ε σ α} {next : α → Act ε σ β} {s s' : σ} {fault : Fault}
    {events : List ε} (h : m s = ⟨.error fault, s', events⟩) :
    (m >>= next) s = ⟨.error fault, s', events⟩ := by
  change Act.bind m next s = _
  unfold Act.bind
  rw [h]

/-- An act whose answer is passed on as another one. -/
theorem bind_pure_apply (m : Act ε σ α) (f : α → β) (s : σ) :
    (m >>= fun a => Pure.pure (f a)) s = (m s).map f := by
  cases hm : m s with
  | mk result s' events =>
    cases result with
    | ok a =>
      rw [bind_of_ok hm]
      simp [Outcome.after, Outcome.map, Except.map, pure_apply]
    | error fault =>
      rw [bind_of_error hm]
      rfl

theorem map_apply (f : α → β) (m : Act ε σ α) (s : σ) : (f <$> m) s = (m s).map f :=
  bind_pure_apply m f s

/-! ## Where a fault comes from -/

@[simp] theorem result_pure (a : α) (s : σ) : ((Pure.pure a : Act ε σ α) s).result = .ok a := rfl

@[simp] theorem result_modify (f : σ → σ) (s : σ) :
    ((modify f : Act ε σ Unit) s).result = .ok () := rfl

@[simp] theorem result_emit (event : ε) (s : σ) :
    ((emit event : Act ε σ Unit) s).result = .ok () := rfl

@[simp] theorem result_ofExcept (x : Except Fault α) (s : σ) :
    ((ofExcept x : Act ε σ α) s).result = x := rfl

@[simp] theorem result_zoom (part : τ → σ) (put : σ → τ → τ) (m : Act ε σ α) (t : τ) :
    (zoom part put m t).result = (m (part t)).result := rfl

@[simp] theorem result_mapEvents (f : ε → δ) (m : Act ε σ α) (s : σ) :
    (mapEvents f m s).result = (m s).result := rfl

/-- A sequence fails exactly if its first act does, or its second on what the first leaves. -/
theorem result_bind_eq_error_iff {m : Act ε σ α} {next : α → Act ε σ β} {s : σ} {fault : Fault} :
    ((m >>= next) s).result = .error fault ↔
      (m s).result = .error fault ∨
        ∃ a s' events, m s = ⟨.ok a, s', events⟩ ∧ (next a s').result = .error fault := by
  -- The second act is carried out only where the first one answers.
  cases hm : m s with
  | mk result s' events =>
    cases result with
    | ok a =>
      rw [bind_of_ok hm]
      constructor
      · intro h
        exact .inr ⟨a, s', events, rfl, h⟩
      · rintro (h | ⟨b, t, _, hb, h⟩)
        · simp at h
        · simp only [Outcome.mk.injEq, Except.ok.injEq] at hb
          obtain ⟨rfl, rfl, -⟩ := hb
          exact h
    | error fault' =>
      rw [bind_of_error hm]
      constructor
      · intro h
        exact .inl (by simpa using h)
      · rintro (h | ⟨b, t, _, hb, -⟩)
        · simpa using h
        · simp at hb

theorem result_get_bind_eq_error_iff {next : σ → Act ε σ β} {s : σ} {fault : Fault} :
    ((get >>= next) s).result = .error fault ↔ (next s s).result = .error fault := Iff.rfl

theorem result_modify_bind_eq_error_iff {f : σ → σ} {next : Unit → Act ε σ β} {s : σ}
    {fault : Fault} :
    ((modify f >>= next) s).result = .error fault ↔ (next () (f s)).result = .error fault := Iff.rfl

theorem result_emit_bind_eq_error_iff {event : ε} {next : Unit → Act ε σ β} {s : σ}
    {fault : Fault} :
    ((emit event >>= next) s).result = .error fault ↔ (next () s).result = .error fault := Iff.rfl

/-! ## Renamed events -/

theorem mapEvents_eq_ok_iff {f : ε → δ} {m : Act ε σ α} {s s' : σ} {a : α} {events : List δ} :
    mapEvents f m s = ⟨.ok a, s', events⟩ ↔
      ∃ seen, m s = ⟨.ok a, s', seen⟩ ∧ events = seen.map f := by
  unfold mapEvents
  generalize m s = o
  obtain ⟨result, state, seen⟩ := o
  simp only [Outcome.mk.injEq]
  constructor
  · rintro ⟨rfl, rfl, rfl⟩
    exact ⟨seen, ⟨rfl, rfl, rfl⟩, rfl⟩
  · rintro ⟨_, ⟨rfl, rfl, rfl⟩, rfl⟩
    exact ⟨rfl, rfl, rfl⟩

theorem mapEvents_bind (f : ε → δ) (m : Act ε σ α) (next : α → Act ε σ β) :
    mapEvents f (m >>= next) = (mapEvents f m >>= fun a => mapEvents f (next a)) := by
  funext s
  cases hm : m s with
  | mk result s' events =>
    have hmapped : mapEvents f m s = ⟨result, s', events.map f⟩ := by
      unfold mapEvents
      rw [hm]
    cases result with
    | error fault =>
      rw [bind_of_error hmapped]
      unfold mapEvents
      rw [bind_of_error hm]
    | ok a =>
      rw [bind_of_ok hmapped]
      unfold mapEvents
      rw [bind_of_ok hm]
      exact congrArg (Outcome.mk _ _) (List.map_append ..)

end Act

end DmaQueue

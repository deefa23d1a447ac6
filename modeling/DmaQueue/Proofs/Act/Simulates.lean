/-
  DmaQueue.Proofs.Act.Simulates

  Acts of two machines that keep in step: from related states they answer the
  same, leave the same events, and reach related states.  Sequences keep this
  up, so it is checked for single acts.
-/
import DmaQueue.Proofs.Act.Failing

namespace DmaQueue

variable {ε δ σ τ α β : Type}

/-- The same answer or fault and the same events, on related states. -/
structure Outcome.Alike (R : σ → τ → Prop) (o : Outcome ε σ α) (o' : Outcome ε τ α) : Prop where
  result : o.result = o'.result
  state : R o.state o'.state
  events : o.events = o'.events

/-- All but the state is known from the other outcome. -/
theorem Outcome.Alike.eq_mk {R : σ → τ → Prop} {o : Outcome ε σ α} {x : Except Fault α} {t : τ}
    {events : List ε} (h : o.Alike R ⟨x, t, events⟩) : o = ⟨x, o.state, events⟩ := by
  have hresult : o.result = x := h.result
  have hevents : o.events = events := h.events
  rw [← hresult, ← hevents]

namespace Act

/-- From related states the acts have outcomes that are alike. -/
def Simulates (R : σ → τ → Prop) (m : Act ε σ α) (m' : Act ε τ α) : Prop :=
  ∀ s t, R s t → (m s).Alike R (m' t)

variable {R : σ → τ → Prop}

theorem Simulates.alike {m : Act ε σ α} {m' : Act ε τ α} {s : σ} {t : τ} (h : Simulates R m m')
    (hst : R s t) : (m s).Alike R (m' t) :=
  h s t hst

theorem Simulates.pure (a : α) :
    Simulates R (Pure.pure a : Act ε σ α) (Pure.pure a : Act ε τ α) :=
  fun _ _ h => ⟨rfl, h, rfl⟩

theorem Simulates.emit (event : ε) : Simulates R (emit event) (emit event) :=
  fun _ _ h => ⟨rfl, h, rfl⟩

theorem Simulates.ofExcept (x : Except Fault α) :
    Simulates R (ofExcept x : Act ε σ α) (ofExcept x : Act ε τ α) :=
  fun _ _ h => ⟨rfl, h, rfl⟩

theorem Simulates.modify {f : σ → σ} {g : τ → τ} (h : ∀ s t, R s t → R (f s) (g t)) :
    Simulates R (modify f : Act ε σ Unit) (modify g : Act ε τ Unit) :=
  fun s t hst => ⟨rfl, h s t hst, rfl⟩

theorem Simulates.bind {m : Act ε σ α} {m' : Act ε τ α} {next : α → Act ε σ β}
    {next' : α → Act ε τ β} (hm : Simulates R m m') (hnext : ∀ a, Simulates R (next a) (next' a)) :
    Simulates R (m >>= next) (m' >>= next') := by
  intro s t h
  have hfirst := hm s t h
  cases hs : m s with
  | mk result s' events =>
    cases ht : m' t with
    | mk result' t' events' =>
      rw [hs, ht] at hfirst
      -- The answers agree, so both machines go on the same way, from related states.
      obtain ⟨rfl, hstate, rfl⟩ := hfirst
      cases result with
      | error fault =>
        rw [bind_of_error hs, bind_of_error ht]
        exact ⟨rfl, hstate, rfl⟩
      | ok a =>
        obtain ⟨hresult, hstate', hevents⟩ := hnext a s' t' hstate
        rw [bind_of_ok hs, bind_of_ok ht]
        exact ⟨hresult, hstate', congrArg (events ++ ·) hevents⟩

/-- What follows a look at the state starts from the states that were looked at. -/
theorem Simulates.get_bind {next : σ → Act ε σ β} {next' : τ → Act ε τ β}
    (h : ∀ s t, R s t → (next s s).Alike R (next' t t)) :
    Simulates R (get >>= next) (get >>= next') :=
  h

theorem Simulates.mapEvents {m : Act ε σ α} {m' : Act ε τ α} {f : ε → δ} (h : Simulates R m m') :
    Simulates R (mapEvents f m) (mapEvents f m') := by
  intro s t hst
  obtain ⟨hresult, hstate, hevents⟩ := h s t hst
  exact ⟨hresult, hstate, congrArg (List.map f) hevents⟩

end Act

end DmaQueue

/-
  DmaQueue.Proofs.Act.Respects

  Acts that do not look behind a view of the state: from two states that look
  the same they answer the same, leave the same events, and reach states that
  look the same.  Sequences keep this up, so it is checked for single acts.
-/
import DmaQueue.Proofs.Act.Simulates

namespace DmaQueue

variable {ε δ σ τ ρ π α β : Type}

/-- The outcome as seen through `view`. -/
def Outcome.seen (view : σ → τ) (o : Outcome ε σ α) : Outcome ε τ α :=
  ⟨o.result, view o.state, o.events⟩

namespace Act

/-- The outcome of the act, as seen through `view`, depends on the view of the state only. -/
def Respects (view : σ → τ) (m : Act ε σ α) : Prop :=
  ∀ s s', view s = view s' → (m s).seen view = (m s').seen view

variable {view : σ → τ}

/-- Such an act keeps in step with itself, from states that look the same. -/
theorem respects_iff {m : Act ε σ α} :
    Respects view m ↔ Simulates (fun s s' => view s = view s') m m := by
  constructor
  · intro h s s' hview
    have hsame := h s s' hview
    simp only [Outcome.seen, Outcome.mk.injEq] at hsame
    exact ⟨hsame.1, hsame.2.1, hsame.2.2⟩
  · intro h s s' hview
    obtain ⟨hresult, hstate, hevents⟩ := h s s' hview
    rw [Outcome.seen, Outcome.seen, hresult, hstate, hevents]

theorem Respects.pure (a : α) : Respects view (Pure.pure a : Act ε σ α) :=
  respects_iff.2 (.pure a)

theorem Respects.emit (event : ε) : Respects view (emit event) :=
  respects_iff.2 (.emit event)

theorem Respects.ofExcept (x : Except Fault α) : Respects view (ofExcept x : Act ε σ α) :=
  respects_iff.2 (.ofExcept x)

/-- A change respects a view if what is seen of the result depends on what is seen before. -/
theorem Respects.modify {f : σ → σ} (hf : ∀ s s', view s = view s' → view (f s) = view (f s')) :
    Respects view (modify f : Act ε σ Unit) :=
  respects_iff.2 (.modify hf)

theorem Respects.bind {m : Act ε σ α} {next : α → Act ε σ β} (hm : Respects view m)
    (hnext : ∀ a, Respects view (next a)) : Respects view (m >>= next) :=
  respects_iff.2 (.bind (respects_iff.1 hm) fun a => respects_iff.1 (hnext a))

/-- What follows a look at the state may use what is seen of it. -/
theorem Respects.get_bind {next : σ → Act ε σ β}
    (hnext : ∀ s s', view s = view s' → next s = next s') (h : ∀ s, Respects view (next s)) :
    Respects view (get >>= next) := by
  refine respects_iff.2 (.get_bind fun s s' hview => ?_)
  rw [hnext s s' hview]
  exact respects_iff.1 (h s') s s' hview

theorem Respects.mapEvents {f : ε → δ} {m : Act ε σ α} (h : Respects view m) :
    Respects view (mapEvents f m) :=
  respects_iff.2 (respects_iff.1 h).mapEvents

/-- An act on a part respects a view of the whole through which the part is seen as the act needs
it, and which sees no more of the part than that. -/
theorem Respects.zoom {part : σ → ρ} {put : ρ → σ → σ} {partView : ρ → π} {m : Act ε ρ α}
    (hpart : ∀ s s', view s = view s' → partView (part s) = partView (part s'))
    (hput : ∀ s s' r r', view s = view s' → partView r = partView r' →
      view (put r s) = view (put r' s'))
    (h : Respects partView m) : Respects view (zoom part put m) := by
  intro s s' hview
  have hsame := h _ _ (hpart s s' hview)
  simp only [Outcome.seen, Outcome.mk.injEq] at hsame
  simp only [Outcome.seen, Act.zoom, Outcome.mk.injEq]
  exact ⟨hsame.1, hput s s' _ _ hview hsame.2.1, hsame.2.2⟩

/-- Every act respects the view that sees everything. -/
theorem Respects.id (m : Act ε σ α) : Respects (fun s => s) m := by
  rintro s s' rfl
  rfl

end Act

end DmaQueue

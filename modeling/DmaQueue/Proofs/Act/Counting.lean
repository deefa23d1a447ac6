/-
  DmaQueue.Proofs.Act.Counting

  How many events of a kind an act can leave, however it ends.  In a sequence
  the bounds add up, so a bound is read off the text of an act.
-/
import DmaQueue.Proofs.Act.Failing

namespace DmaQueue.Act

variable {ε δ σ τ α β : Type} {p : ε → Bool} {n k : Nat}

/-- At most `n` of the events that the act leaves satisfy `p`, also if it faults. -/
def LeavesAtMost (p : ε → Bool) (n : Nat) (m : Act ε σ α) : Prop :=
  ∀ s, (m s).events.countP p ≤ n

theorem LeavesAtMost.mono {m : Act ε σ α} (h : LeavesAtMost p n m) (hle : n ≤ k) :
    LeavesAtMost p k m := fun s => Nat.le_trans (h s) hle

theorem LeavesAtMost.pure (a : α) : LeavesAtMost p 0 (Pure.pure a : Act ε σ α) :=
  fun _ => Nat.le_refl 0

theorem LeavesAtMost.modify (f : σ → σ) : LeavesAtMost p 0 (modify f : Act ε σ Unit) :=
  fun _ => Nat.le_refl 0

theorem LeavesAtMost.ofExcept (x : Except Fault α) :
    LeavesAtMost p 0 (ofExcept x : Act ε σ α) := fun _ => Nat.le_refl 0

theorem LeavesAtMost.emit (event : ε) : LeavesAtMost p 1 (Act.emit event : Act ε σ Unit) := by
  intro s
  exact List.countP_le_length

theorem LeavesAtMost.emit_of_neg {event : ε} (h : p event = false) :
    LeavesAtMost p 0 (Act.emit event : Act ε σ Unit) := by
  intro s
  show [event].countP p ≤ 0
  rw [List.countP_singleton, h]
  exact Nat.le_refl 0

/-- A sequence leaves the events of both its acts, or those of the first one only. -/
theorem LeavesAtMost.bind {m : Act ε σ α} {next : α → Act ε σ β} (hm : LeavesAtMost p n m)
    (hnext : ∀ a, LeavesAtMost p k (next a)) : LeavesAtMost p (n + k) (m >>= next) := by
  intro s
  have hfirst := hm s
  cases hone : m s with
  | mk result mid events =>
    rw [hone] at hfirst
    cases result with
    | ok a =>
      have hsecond := hnext a mid
      rw [bind_of_ok hone]
      show (events ++ (next a mid).events).countP p ≤ n + k
      rw [List.countP_append]
      exact Nat.add_le_add hfirst hsecond
    | error fault =>
      rw [bind_of_error hone]
      exact Nat.le_trans hfirst (Nat.le_add_right n k)

theorem LeavesAtMost.bind_none {m : Act ε σ α} {next : α → Act ε σ β} (hm : LeavesAtMost p n m)
    (hnext : ∀ a, LeavesAtMost p 0 (next a)) : LeavesAtMost p n (m >>= next) :=
  hm.bind hnext

theorem LeavesAtMost.none_bind {m : Act ε σ α} {next : α → Act ε σ β} (hm : LeavesAtMost p 0 m)
    (hnext : ∀ a, LeavesAtMost p n (next a)) : LeavesAtMost p n (m >>= next) :=
  (hm.bind hnext).mono (Nat.le_of_eq (Nat.zero_add n))

theorem LeavesAtMost.get_bind {next : σ → Act ε σ β} (h : ∀ s, LeavesAtMost p n (next s)) :
    LeavesAtMost p n (get >>= next) := fun s => h s s

theorem LeavesAtMost.zoom {part : τ → σ} {put : σ → τ → τ} {m : Act ε σ α}
    (h : LeavesAtMost p n m) : LeavesAtMost p n (zoom part put m) := fun t => h (part t)

/-- Renamed events do not count if no name satisfies `p`. -/
theorem LeavesAtMost.mapEvents {f : δ → ε} (hf : ∀ event, p (f event) = false)
    (m : Act δ σ α) : LeavesAtMost p 0 (mapEvents f m) := by
  intro s
  show ((m s).events.map f).countP p ≤ 0
  simp [List.countP_map, Function.comp_def, hf]

end DmaQueue.Act

/-
  DmaQueue.Engine.Reclaim

  Giving back the pages of the transfers in flight.  An empty destination FIFO
  is the signal that the accelerator is done with all of them.
-/
import DmaQueue.Engine.Basic

namespace DmaQueue.Engine

variable {P R : Type} [Pinner P]

/-- Takes the transfers out of flight one after the other and releases their pages. -/
def reclaimAll : List Transfer → Act Event (Engine P R) Unit
  | [] => return ()
  | t :: rest => do
    -- The transfer is out of flight before its first page is released.
    Act.modify fun engine => { engine with inFlight := rest }
    onPinner t.release
    count (Tally.countReclaimed t.pageCount)
    reclaimAll rest

/-- Reclaims every transfer in flight, the oldest first. -/
def reclaim : Act Event (Engine P R) Unit := do
  let engine ← Act.get
  reclaimAll engine.inFlight
  Act.note .debug s!"[ACCEL] reclaimed {engine.inFlight.length} finished operation(s)"

/-- Reclaims if the destination FIFO is empty and a transfer is in flight. -/
def reclaimIfDrained (depths : Depths) : Act Event (Engine P R) Unit := do
  let engine ← Act.get
  if depths.dest = 0 ∧ engine.inFlight ≠ [] then
    reclaim
  else
    return ()

/-! ## The queue stays -/

theorem pending_of_reclaimAll {ts : List Transfer} {engine engine' : Engine P R}
    {events : List Event} (h : reclaimAll ts engine = ⟨.ok (), engine', events⟩) :
    engine'.pending = engine.pending := by
  induction ts generalizing engine events with
  | nil =>
    obtain ⟨-, rfl, -⟩ := Act.pure_eq_ok_iff.1 h
    rfl
  | cons t rest ih =>
    have h₁ := Act.modify_bind_eq_ok_iff.1 h
    obtain ⟨_, e₁, _, _, hrelease, h₂, -⟩ := Act.bind_eq_ok_iff.1 h₁
    have hrest := Act.modify_bind_eq_ok_iff.1 h₂
    have hpending := pending_of_onPinner hrelease
    rw [ih hrest]
    exact hpending

theorem pending_of_reclaimIfDrained {depths : Depths} {engine engine' : Engine P R}
    {events : List Event} (h : reclaimIfDrained depths engine = ⟨.ok (), engine', events⟩) :
    engine'.pending = engine.pending := by
  have h₁ := Act.get_bind_eq_ok_iff.1 h
  split at h₁
  · have h₂ := Act.get_bind_eq_ok_iff.1 h₁
    obtain ⟨_, e₁, _, _, hall, hnote, -⟩ := Act.bind_eq_ok_iff.1 h₂
    rw [(Act.emit_eq_ok_iff.1 hnote).1]
    exact pending_of_reclaimAll hall
  · rw [← (Act.pure_eq_ok_iff.1 h₁).2.1]

end DmaQueue.Engine

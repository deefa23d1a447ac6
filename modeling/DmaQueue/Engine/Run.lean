/-
  DmaQueue.Engine.Run

  The issue loop.  Each turn reads both depths, gives back the pages of every
  transfer in flight if the destination FIFO is empty, and writes at most one
  descriptor of the oldest pending transfer.  The loop ends when nothing is
  pending or when the FIFO needed next is full.

  Every turn that does not end the loop writes a descriptor or takes a transfer
  out of the queue, so the loop ends whatever the control block reports
  (`workload_lt_of_turn`).
-/
import DmaQueue.Engine.Issue
import DmaQueue.Engine.Reclaim

namespace DmaQueue.Engine

variable {P R : Type} [Pinner P] [Registers R]

/-! ## One turn -/

/-- One turn of the issue loop; answers why the loop ends, if it does. -/
def turn : Act Event (Engine P R) (Option Pause) := do
  let depths ← sample
  -- The sample is older than the descriptor that this turn may write, so an empty destination FIFO
  -- speaks for the transfers already in flight only.
  reclaimIfDrained depths
  let engine ← Act.get
  serveFirst depths engine.pending

/-! ## The loop ends -/

/-- A turn that does not end the loop leaves less work. -/
theorem workload_lt_of_turn {engine engine' : Engine P R} {events : List Event}
    (h : turn engine = ⟨.ok none, engine', events⟩) : engine'.workload < engine.workload := by
  obtain ⟨depths, e₁, _, _, hsample, h₁, -⟩ := Act.bind_eq_ok_iff.1 h
  obtain ⟨_, e₂, _, _, hreclaim, h₂, -⟩ := Act.bind_eq_ok_iff.1 h₁
  have h₃ := Act.get_bind_eq_ok_iff.1 h₂
  -- Reading the depths and reclaiming leave the queue alone; only serving its head changes it.
  have hpending : e₂.pending = engine.pending := by
    rw [pending_of_reclaimIfDrained hreclaim, pending_of_sample hsample]
  have hload : e₂.workload = engine.workload := by
    rw [workload, workload, hpending]
  cases hq : e₂.pending with
  | nil =>
    rw [hq] at h₃
    exact absurd (Act.pure_eq_ok_iff.1 h₃).1 (by simp)
  | cons t rest =>
    rw [hq] at h₃
    exact hload ▸ workload_lt_of_serve h₃ hq

/-! ## The loop -/

/-- Runs turns until one ends the loop; answers why it ended. -/
def run (engine : Engine P R) : Outcome Event (Engine P R) Pause :=
  match _h : turn engine with
  | ⟨.ok none, next, events⟩ => (run next).after events
  | ⟨.ok (some pause), next, events⟩ => ⟨.ok pause, next, events⟩
  | ⟨.error fault, next, events⟩ => ⟨.error fault, next, events⟩
termination_by engine.workload
decreasing_by exact workload_lt_of_turn _h

theorem run_of_turn_eq_none {engine next : Engine P R} {events : List Event}
    (h : turn engine = ⟨.ok none, next, events⟩) : run engine = (run next).after events := by
  rw [run]
  split <;> simp_all

theorem run_of_turn_eq_some {engine next : Engine P R} {events : List Event} {pause : Pause}
    (h : turn engine = ⟨.ok (some pause), next, events⟩) :
    run engine = ⟨.ok pause, next, events⟩ := by
  rw [run]
  split <;> simp_all

theorem run_of_turn_eq_error {engine next : Engine P R} {events : List Event} {fault : Fault}
    (h : turn engine = ⟨.error fault, next, events⟩) :
    run engine = ⟨.error fault, next, events⟩ := by
  rw [run]
  split <;> simp_all

/-- Runs the issue loop; answers whether work is left. -/
def poll : Act Event (Engine P R) Bool := do
  let _ ← (run : Act Event (Engine P R) Pause)
  let engine ← Act.get
  return engine.hasWork

end DmaQueue.Engine

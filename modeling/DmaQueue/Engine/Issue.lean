/-
  DmaQueue.Engine.Issue

  Writing the descriptors of the transfer at the head of the queue, one at a
  time.  A full FIFO holds up the whole queue: transfers are never written out
  of turn.
-/
import DmaQueue.Engine.Basic
import DmaQueue.Transfer.Issuer

namespace DmaQueue

/-- Why the issue loop ended. -/
inductive Pause where
  /-- Nothing is pending. -/
  | drained
  /-- The FIFO of this side is full. -/
  | blocked (side : Side)
  deriving DecidableEq, Repr

namespace Engine

variable {P R : Type} [Registers R]

/-- Reads both depths. -/
def sample : Act Event (Engine P R) Depths := do
  let depths ← onRegisters Registers.sample
  Act.note .trace s!"[ACCEL] depth src={depths.source.toNat} dest={depths.dest.toNat}"
  return depths

/-- An act of the issuer of the head `t` of the queue, which is followed by `rest`. -/
def onIssuer {α : Type} (t : Transfer) (rest : List Transfer) (m : Act Event (Issuer R) α) :
    Act Event (Engine P R) α :=
  Act.zoom (fun engine => ⟨t, engine.registers⟩)
    (fun issuer engine =>
      { engine with registers := issuer.registers, pending := issuer.transfer :: rest }) m

/-- What the engine does about the report of a step: a head that is written leaves the queue. -/
def heed : Report → Act Event (Engine P R) (Option Pause)
  | .issued side => do
    count (Tally.countDescriptor side)
    return none
  | .finished side => do
    count (Tally.countDescriptor side)
    Act.modify retireHead
    return none
  | .stalled side => do
    count Tally.countStall
    Act.note .trace s!"[ACCEL] {side.label} FIFO full, yielding"
    return some (.blocked side)
  | .alreadySent => do
    Act.modify retireHead
    return none

/-- Serves the head `t` of the queue, which is followed by `rest`, by a step of its issuer. -/
def serve (t : Transfer) (rest : List Transfer) (depths : Depths) :
    Act Event (Engine P R) (Option Pause) := do
  let engine ← Act.get
  let report ← onIssuer t rest (Issuer.step engine.config depths)
  heed report

/-- Serves the oldest of the pending transfers. -/
def serveFirst (depths : Depths) : List Transfer → Act Event (Engine P R) (Option Pause)
  | [] => return some .drained
  | t :: rest => serve t rest depths

/-! ## Work is done -/

theorem pending_of_sample {engine engine' : Engine P R} {depths : Depths}
    {events : List Event} (h : sample engine = ⟨.ok depths, engine', events⟩) :
    engine'.pending = engine.pending := by
  obtain ⟨depths', e₁, _, _, hread, h₁, -⟩ := Act.bind_eq_ok_iff.1 h
  obtain ⟨_, hpure, -⟩ := Act.emit_bind_eq_ok_iff.1 h₁
  rw [← (Act.pure_eq_ok_iff.1 hpure).2.1]
  exact pending_of_onRegisters hread

theorem workload_lt_of_serve {t : Transfer} {rest : List Transfer} {depths : Depths}
    {engine engine' : Engine P R} {events : List Event}
    (h : serve t rest depths engine = ⟨.ok none, engine', events⟩)
    (hp : engine.pending = t :: rest) : engine'.workload < engine.workload := by
  have h₁ := Act.get_bind_eq_ok_iff.1 h
  obtain ⟨report, e₁, _, _, hstep, h₂, -⟩ := Act.bind_eq_ok_iff.1 h₁
  obtain ⟨issuer, hissue, rfl⟩ := Act.zoom_eq_ok_iff.1 hstep
  rw [workload_cons hp]
  -- Each report that lets the loop go on has left a shorter head, or none.
  cases report with
  | issued side =>
    have hpure := Act.modify_bind_eq_ok_iff.1 h₂
    rw [← (Act.pure_eq_ok_iff.1 hpure).2.1]
    have hless : issuer.transfer.remaining < t.remaining := Issuer.remaining_lt_of_issued hissue
    show issuer.transfer.remaining + 1 + work rest < t.remaining + 1 + work rest
    omega
  | finished side =>
    have h₃ := Act.modify_bind_eq_ok_iff.1 h₂
    have hpure := Act.modify_bind_eq_ok_iff.1 h₃
    rw [← (Act.pure_eq_ok_iff.1 hpure).2.1]
    exact work_lt t rest
  | stalled side =>
    have h₃ := Act.modify_bind_eq_ok_iff.1 h₂
    obtain ⟨_, h₄, -⟩ := Act.emit_bind_eq_ok_iff.1 h₃
    exact nomatch (Act.pure_eq_ok_iff.1 h₄).1
  | alreadySent =>
    have hpure := Act.modify_bind_eq_ok_iff.1 h₂
    rw [← (Act.pure_eq_ok_iff.1 hpure).2.1]
    exact work_lt t rest

end Engine

end DmaQueue

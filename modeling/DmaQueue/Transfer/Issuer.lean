/-
  DmaQueue.Transfer.Issuer

  The issuer of a transfer writes its descriptors to the control block, at most
  one of them in a step.  A step reports what it has done.  Where the FIFO that
  it needs is full it does nothing, so the next one goes on from the same place.
-/
import DmaQueue.Transfer.Basic

namespace DmaQueue

/-- What a step of the issuer has done. -/
inductive Report where
  /-- One descriptor is written to this side, and there are more. -/
  | issued (side : Side)
  /-- The last descriptor is written, to this side. -/
  | finished (side : Side)
  /-- The FIFO of this side is full, and nothing is written. -/
  | stalled (side : Side)
  /-- Every descriptor was written before. -/
  | alreadySent
  deriving DecidableEq, Repr

/-- A transfer, and the control block that its descriptors are written to. -/
structure Issuer (R : Type) where
  /-- The transfer. -/
  transfer : Transfer
  /-- The control block. -/
  registers : R

namespace Issuer

variable {R : Type} [Registers R]

/-- Writes one descriptor at most, at the sampled depths. -/
def step (config : Config) (depths : Depths) : Act Event (Issuer R) Report := do
  let issuer ← Act.get
  match ← Act.ofExcept (issuer.transfer.step config depths) with
  | .stalled side => return .stalled side
  | .send side descriptor =>
    Act.note .trace s!"[ACCEL] issue {side.label} {Hex.padded 16 descriptor.raw.toNat}"
    Act.zoom Issuer.registers (fun registers issuer => { issuer with registers })
      (Registers.push side descriptor)
    let transfer := issuer.transfer.advance
    Act.modify fun issuer => { issuer with transfer }
    return if transfer.progress.isSent then .finished side else .issued side
  | .complete => return .alreadySent

/-! ## Progress is made -/

/-- A descriptor that is not the last leaves fewer to be written. -/
theorem remaining_lt_of_issued {config : Config} {depths : Depths} {issuer issuer' : Issuer R}
    {side : Side} {events : List Event}
    (h : step config depths issuer = ⟨.ok (.issued side), issuer', events⟩) :
    issuer'.transfer.remaining < issuer.transfer.remaining := by
  have h₁ := Act.get_bind_eq_ok_iff.1 h
  obtain ⟨next, i₁, _, _, hnext, h₂, -⟩ := Act.bind_eq_ok_iff.1 h₁
  obtain ⟨hstep, rfl, -⟩ := Act.ofExcept_eq_ok_iff.1 hnext
  cases next with
  | stalled | complete => exact nomatch (Act.pure_eq_ok_iff.1 h₂).1
  | send side' descriptor =>
    obtain ⟨_, h₃, -⟩ := Act.emit_bind_eq_ok_iff.1 h₂
    obtain ⟨_, i₂, _, _, -, h₄, -⟩ := Act.bind_eq_ok_iff.1 h₃
    have hpure := Act.modify_bind_eq_ok_iff.1 h₄
    rw [← (Act.pure_eq_ok_iff.1 hpure).2.1]
    exact Transfer.remaining_advance_lt hstep

end Issuer

end DmaQueue

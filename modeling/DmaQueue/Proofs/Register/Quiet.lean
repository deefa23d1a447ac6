/-
  DmaQueue.Proofs.Register.Quiet

  Control blocks that stand still: reading a register leaves the control block as
  it was, so that two samples with no write between them are the same.  FIFOs with
  no prepared readings stand still, whatever they hold and whether or not they are
  forced full, and so does plain memory.
-/
import DmaQueue.Proofs.Register.FifoPair
import DmaQueue.Register.Window

namespace DmaQueue

open Act (Keeps)

/-- A control block with `still` is not changed by reads, and has `still` also after a write. -/
structure Registers.Quiet {R : Type} [Registers R] (still : R → Prop) : Prop where
  load : ∀ offset r, still r → (Registers.load offset r).state = r
  store : ∀ offset value r, still r → still (Registers.store offset value r).state

namespace Registers.Quiet

variable {R : Type} [Registers R] {still : R → Prop} {r r' : R}

theorem keeps_load (h : Quiet still) (offset : UInt64) :
    Keeps still (Registers.load offset : Act Note R UInt32) := by
  intro r hstill
  rw [h.load offset r hstill]
  exact hstill

/-- A sample leaves the control block as it was. -/
theorem eq_of_sample (h : Quiet still) (hstill : still r) {x : Except Fault Depths}
    {events : List Event} (hsample : Registers.sample r = ⟨x, r', events⟩) : r' = r := by
  have hload : ∀ offset, Keeps (· = r) (Registers.load offset : Act Note R UInt32) := by
    rintro offset _ rfl
    exact h.load offset _ hstill
  have hsame : (Registers.sample r).state = r := Registers.keeps_sample hload r rfl
  rw [hsample] at hsame
  exact hsame

end Registers.Quiet

/-! ## FIFOs -/

namespace FifoPair

/-- No readings are prepared. -/
def Unscripted (fifos : FifoPair) : Prop :=
  ∀ side, (fifos.lane side).script = []

theorem update_of_eq {side : Side} {f : Lane → Lane} {fifos : FifoPair}
    (h : f (fifos.lane side) = fifos.lane side) : update side f fifos = fifos := by
  cases side with
  | source =>
    show { fifos with source := f fifos.source } = fifos
    rw [show f fifos.source = fifos.source from h]
  | dest =>
    show { fifos with dest := f fifos.dest } = fifos
    rw [show f fifos.dest = fifos.dest from h]

theorem quiet_unscripted : Registers.Quiet Unscripted := by
  constructor
  case load =>
    intro offset fifos h
    simp only [Registers.load]
    cases depthSide? offset with
    | none => rfl
    | some side =>
      -- Nothing is taken from the prepared readings, since there are none.
      apply update_of_eq
      rw [Lane.afterRead, h side, List.tail_nil, ← h side]
  case store =>
    intro offset value fifos h
    simp only [Registers.store]
    cases entrySide? offset with
    | none => exact h
    | some side =>
      exact forall_lane_update (p := fun lane => lane.script = []) h fun _ hlane => hlane

end FifoPair

/-! ## Plain memory -/

theorem RegisterWindow.quiet : Registers.Quiet fun _ : RegisterWindow => True := by
  constructor
  case load => exact fun _ _ _ => rfl
  case store => exact fun _ _ _ _ => trivial

end DmaQueue

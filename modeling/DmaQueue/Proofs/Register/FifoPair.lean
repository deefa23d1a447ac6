/-
  DmaQueue.Proofs.Register.FifoPair

  FIFOs that report their own depths.  No access takes this away, and nor does
  draining them.
-/
import DmaQueue.Proofs.Engine.Keeps

namespace DmaQueue

open Act (Keeps)

/-- The lane reports its own depth: it is not forced full, and no reading is prepared. -/
structure Lane.Plain (lane : Lane) : Prop where
  unforced : lane.forcedFull = false
  unscripted : lane.script = []

theorem Lane.Plain.afterRead {lane : Lane} (h : lane.Plain) : lane.afterRead.Plain := by
  constructor
  case unforced => exact h.unforced
  case unscripted => rw [Lane.afterRead, h.unscripted, List.tail_nil]

theorem Lane.Plain.reported {lane : Lane} (h : lane.Plain) (capacity : UInt32) :
    lane.reported capacity = lane.depth := by
  simp [Lane.reported, h.unforced, h.unscripted]

namespace FifoPair

/-- Both lanes report their own depths. -/
def Plain (fifos : FifoPair) : Prop :=
  ∀ side, (fifos.lane side).Plain

variable {fifos : FifoPair}

/-- What is done to one lane does not touch the other. -/
theorem forall_lane_update {p : Lane → Prop} {side : Side} {f : Lane → Lane}
    (h : ∀ side, p (fifos.lane side)) (hf : ∀ lane, p lane → p (f lane)) :
    ∀ other, p ((update side f fifos).lane other) := by
  intro other
  cases side <;> cases other
  case source.source => exact hf _ (h .source)
  case source.dest => exact h .dest
  case dest.source => exact h .source
  case dest.dest => exact hf _ (h .dest)

theorem Plain.update {side : Side} {f : Lane → Lane} (h : fifos.Plain)
    (hf : ∀ lane : Lane, lane.Plain → (f lane).Plain) : (update side f fifos).Plain :=
  forall_lane_update h hf

theorem Plain.drained (h : fifos.Plain) : fifos.drained.Plain := by
  intro side
  cases side
  case source => exact ⟨(h .source).unforced, (h .source).unscripted⟩
  case dest => exact ⟨(h .dest).unforced, (h .dest).unscripted⟩

theorem keeps_load (offset : UInt64) :
    Keeps Plain (Registers.load offset : Act Note FifoPair UInt32) := by
  intro fifos h
  simp only [Registers.load]
  cases depthSide? offset with
  | none => exact h
  | some side => exact h.update fun lane hlane => hlane.afterRead

theorem keeps_store (offset : UInt64) (value : UInt32) :
    Keeps Plain (Registers.store offset value : Act Note FifoPair Unit) := by
  intro fifos h
  simp only [Registers.store]
  cases entrySide? offset with
  | none => exact h
  | some side => exact h.update fun lane hlane => ⟨hlane.unforced, hlane.unscripted⟩

/-- Both depths are read as the lanes report them. -/
theorem result_sample (fifos : FifoPair) :
    (Registers.sample fifos : Outcome Event FifoPair Depths).result =
      .ok ⟨fifos.source.reported fifos.capacity, fifos.dest.reported fifos.capacity⟩ := rfl

/-- Drained FIFOs read empty. -/
theorem Plain.sample_drained (h : fifos.Plain) {depths : Depths} {fifos' : FifoPair}
    {events : List Event}
    (hsample : Registers.sample fifos.drained = ⟨.ok depths, fifos', events⟩) :
    ∀ side, depths.of side = 0 := by
  have hread := result_sample fifos.drained
  rw [hsample] at hread
  obtain rfl := Except.ok.inj hread
  intro side
  cases side
  case source => exact (h.drained .source).reported _
  case dest => exact (h.drained .dest).reported _

end FifoPair

end DmaQueue

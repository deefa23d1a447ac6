/-
  DmaQueue.Register.FifoPair

  A control block with two FIFOs that are known by their depth only.  A
  descriptor enters a FIFO with its high half.  The device side can take
  descriptors out, force a FIFO to report that it is full, and prepare the
  depths that the next reads report.
-/
import DmaQueue.Register.Basic

namespace DmaQueue

/-- One FIFO. -/
structure Lane where
  /-- How many descriptors are in the FIFO. -/
  depth : UInt32 := 0
  /-- Whether the FIFO reports its capacity instead of its depth. -/
  forcedFull : Bool := false
  /-- The depths that the next reads report, before all else. -/
  script : List UInt32 := []
  deriving DecidableEq, Repr

/-- Two FIFOs of one capacity. -/
structure FifoPair where
  /-- How many descriptors a FIFO holds. -/
  capacity : UInt32
  source : Lane := {}
  dest : Lane := {}
  deriving DecidableEq, Repr

namespace Lane

/-- What a read of the depth reports. -/
def reported (lane : Lane) (capacity : UInt32) : UInt32 :=
  match lane.script with
  | depth :: _ => depth
  | [] => if lane.forcedFull then capacity else lane.depth

/-- The lane after its depth was read. -/
def afterRead (lane : Lane) : Lane :=
  { lane with script := lane.script.tail }

/-- The lane after a descriptor entered it; a full FIFO loses the descriptor. -/
def pushed (lane : Lane) (capacity : UInt32) : Lane :=
  { lane with depth := UInt32.ofNat (min (lane.depth.toNat + 1) capacity.toNat) }

/-- The lane after the device took out up to `count` descriptors. -/
def consumed (lane : Lane) (count : UInt32) : Lane :=
  { lane with depth := UInt32.ofNat (lane.depth.toNat - count.toNat) }

end Lane

namespace FifoPair

/-- The FIFO of a side. -/
def lane (fifos : FifoPair) : Side → Lane
  | .source => fifos.source
  | .dest => fifos.dest

/-- Changes the FIFO of a side. -/
def update (side : Side) (f : Lane → Lane) (fifos : FifoPair) : FifoPair :=
  match side with
  | .source => { fifos with source := f fifos.source }
  | .dest => { fifos with dest := f fifos.dest }

/-- Empties both FIFOs. -/
def drained (fifos : FifoPair) : FifoPair :=
  { fifos with
    source := { fifos.source with depth := 0 }
    dest := { fifos.dest with depth := 0 } }

/-- The side whose depth is read at `offset`. -/
def depthSide? (offset : UInt64) : Option Side :=
  if offset = Side.source.depthOffset then some .source
  else if offset = Side.dest.depthOffset then some .dest
  else none

/-- The side that takes a descriptor when `offset` is written. -/
def entrySide? (offset : UInt64) : Option Side :=
  if offset = Side.source.highOffset then some .source
  else if offset = Side.dest.highOffset then some .dest
  else none

instance : Registers FifoPair where
  load offset :=
    match depthSide? offset with
    | some side => do
      let fifos ← Act.get
      Act.modify (update side Lane.afterRead)
      return (fifos.lane side).reported fifos.capacity
    | none => return 0
  store offset _ :=
    match entrySide? offset with
    | some side => Act.modify fun fifos => update side (·.pushed fifos.capacity) fifos
    | none => return ()

end FifoPair

end DmaQueue

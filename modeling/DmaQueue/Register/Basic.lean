/-
  DmaQueue.Register.Basic

  The control block as the engine sees it: two FIFOs, each with a pair of
  registers.

      offset   written                    read
      0        source descriptor, low     depth of the source FIFO
      4        source descriptor, high
      8        dest descriptor, low       depth of the dest FIFO
      12       dest descriptor, high

  The depth of a FIFO may change between two reads, so reading is an act.
-/
import DmaQueue.Descriptor
import DmaQueue.Trace.Event

namespace DmaQueue

/-! ## Sides -/

/-- One of the two FIFOs. -/
inductive Side where
  | source
  | dest
  deriving DecidableEq, Repr

namespace Side

/-- The register for the low half of a descriptor. -/
def lowOffset : Side → UInt64
  | .source => 0
  | .dest => 8

/-- The register for the high half of a descriptor. -/
def highOffset : Side → UInt64
  | .source => 4
  | .dest => 12

/-- The register that is read for the depth; it is the one that the low half is written to. -/
def depthOffset : Side → UInt64
  | .source => 0
  | .dest => 8

/-- The name of a side in notes. -/
def label : Side → String
  | .source => "Source"
  | .dest => "Destination"

end Side

/-- The depths of the two FIFOs, read one after the other. -/
structure Depths where
  source : UInt32
  dest : UInt32
  deriving DecidableEq, Repr

/-- The depth of one side. -/
def Depths.of (depths : Depths) : Side → UInt32
  | .source => depths.source
  | .dest => depths.dest

/-! ## Access -/

/-- A control block, accessed by 32-bit words at byte offsets. -/
class Registers (R : Type) where
  /-- Reads a register. -/
  load (offset : UInt64) : Act Note R UInt32
  /-- Writes a register. -/
  store (offset : UInt64) (value : UInt32) : Act Note R Unit

namespace Registers

variable {R : Type} [Registers R]

/-- Reads a register and enters the access into the record. -/
def read (offset : UInt64) : Act Event R UInt32 := do
  let value ← Act.mapEvents .noted (load offset)
  Act.emit (.loaded offset value)
  return value

/-- Writes a register and enters the access into the record. -/
def write (offset : UInt64) (value : UInt32) : Act Event R Unit := do
  Act.mapEvents .noted (store offset value)
  Act.emit (.stored offset value)

/-- Reads the depths of both FIFOs, that of the source first. -/
def sample : Act Event R Depths := do
  let source ← read Side.source.depthOffset
  let dest ← read Side.dest.depthOffset
  return { source, dest }

/-- Hands a descriptor to a FIFO: the low half, then the high half. -/
def push (side : Side) (descriptor : Descriptor) : Act Event R Unit := do
  write side.lowOffset descriptor.low
  write side.highOffset descriptor.high

end Registers

end DmaQueue

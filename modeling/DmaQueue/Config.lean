/-
  DmaQueue.Config

  The parameters of an engine and the place of its control block, with the
  conditions under which they fit together.
-/
import DmaQueue.Word

namespace DmaQueue

/-- The largest length that a descriptor can carry. -/
def maxChunkLength : UInt64 := 2097151

/-- What is wrong with a configuration. -/
inductive ConfigFlaw where
  | pageSizeNotPowerOfTwo
  | pageSizeTooLarge
  | alignmentNotPowerOfTwo
  | alignmentAbovePage
  | noFifo
  | negativeUnits
  | windowTooSmall
  | baseMisaligned
  /-- The memory manager splits ranges at another page size. -/
  | pageSizeMismatch
  deriving DecidableEq, Repr

/-- The wording of a flaw. -/
def ConfigFlaw.message : ConfigFlaw → String
  | .pageSizeNotPowerOfTwo => "page size must be a power of two"
  | .pageSizeTooLarge => "page size exceeds descriptor length"
  | .alignmentNotPowerOfTwo => "alignment must be a power of two"
  | .alignmentAbovePage => "alignment larger than a page"
  | .noFifo => "FIFO capacity must be non-zero"
  | .negativeUnits => "negative function unit count"
  | .windowTooSmall => "control window too small"
  | .baseMisaligned => "control base misaligned"
  | .pageSizeMismatch => "page size differs from pinner"

/-- The parameters of an engine. -/
structure Config where
  /-- The page size at which a transfer is split into chunks. -/
  pageSize : UInt64 := 4096
  /-- The depth at which a FIFO is full. -/
  fifoFull : UInt32 := 128
  /-- The greatest opcode. -/
  functionUnits : Int32 := 3
  /-- What addresses and lengths are multiples of. -/
  alignment : UInt64 := 64
  deriving DecidableEq, Repr

namespace Config

open Word

/-- The first flaw of the configuration. -/
def flaw? (config : Config) : Option ConfigFlaw :=
  if !isPowerOfTwo config.pageSize then some .pageSizeNotPowerOfTwo
  else if maxChunkLength < config.pageSize then some .pageSizeTooLarge
  else if !isPowerOfTwo config.alignment then some .alignmentNotPowerOfTwo
  else if config.pageSize < config.alignment then some .alignmentAbovePage
  else if config.fifoFull = 0 then some .noFifo
  else if config.functionUnits < 0 then some .negativeUnits
  else none

end Config

/-- Where the control registers are mapped. -/
structure ControlBlock where
  /-- The address of the first register. -/
  base : UInt64 := 0x40012000
  /-- The size of the mapped window in bytes. -/
  window : UInt64 := 4096
  deriving DecidableEq, Repr

/-- Whether the window holds no register at all. -/
def ControlBlock.isEmpty (control : ControlBlock) : Bool :=
  control.window == 0

/-- The parameters of an engine and the place of its control block. -/
structure DeviceConfig where
  /-- The parameters of the engine. -/
  engine : Config := {}
  /-- The place of the control block. -/
  control : ControlBlock := {}
  deriving DecidableEq, Repr

/-- The first flaw; those of the engine's parameters come first.  The window has to hold the four
registers of the two FIFOs. -/
def DeviceConfig.flaw? (config : DeviceConfig) : Option ConfigFlaw :=
  match config.engine.flaw? with
  | some flaw => some flaw
  | none =>
    if config.control.window < 16 then some .windowTooSmall
    else if config.control.base % 4 ≠ 0 then some .baseMisaligned
    else none

end DmaQueue

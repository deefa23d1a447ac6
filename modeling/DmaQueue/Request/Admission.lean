/-
  DmaQueue.Request.Admission

  The conditions under which a request is let in, and the page geometry of the
  two ranges of one that is.  The first condition that fails is the reason
  given.
-/
import DmaQueue.Config
import DmaQueue.Page.Extent
import DmaQueue.Request.OutputLength

namespace DmaQueue

/-- Why a request is not let in. -/
inductive Rejection where
  | unknownOpcode (opcode : Int32)
  | zeroLength
  | sourceMisaligned (addr : UInt64)
  | destMisaligned (addr : UInt64)
  | lengthMisaligned (length : UInt64)
  | outputMisaligned (length : UInt64)
  | outputOverflow
  | addressOverflow
  deriving DecidableEq, Repr

/-- The wording of a rejection. -/
def Rejection.message : Rejection → String
  | .unknownOpcode opcode => s!"opcode {opcode.toInt} out of range"
  | .zeroLength => "zero-length transfer"
  | .sourceMisaligned addr => s!"source address {Hex.marked addr.toNat} misaligned"
  | .destMisaligned addr => s!"destination address {Hex.marked addr.toNat} misaligned"
  | .lengthMisaligned length => s!"length {length.toNat} misaligned"
  | .outputMisaligned length => s!"output length {length.toNat} misaligned"
  | .outputOverflow => "output length overflows"
  | .addressOverflow => "address range overflows"

/-- What is known of a request that is let in. -/
structure Admitted where
  /-- The number of bytes that come out. -/
  outputLength : UInt64
  /-- How the source range lies on its pages. -/
  source : Extent
  /-- How the destination range lies on its pages. -/
  dest : Extent
  deriving DecidableEq, Repr

namespace Request

open Word

/-- The first of the four numbers of a request that is not a multiple of the alignment whose bits
are `mask`. -/
def misaligned? (r : Request) (output mask : UInt64) : Option Rejection :=
  if r.source &&& mask ≠ 0 then some (.sourceMisaligned r.source)
  else if r.dest &&& mask ≠ 0 then some (.destMisaligned r.dest)
  else if r.length &&& mask ≠ 0 then some (.lengthMisaligned r.length)
  else if output &&& mask ≠ 0 then some (.outputMisaligned output)
  else none

/-- The geometry of the two ranges, the source first. -/
def extents (r : Request) (output pageSize : UInt64) :
    Except Fault (Except Rejection Admitted) := do
  match ← Extent.ofRange r.source r.length pageSize with
  | none => return .error .addressOverflow
  | some source =>
    match ← Extent.ofRange r.dest output pageSize with
    | none => return .error .addressOverflow
    | some dest => return .ok { outputLength := output, source, dest }

/-- Checks a request against a configuration. -/
def admission (r : Request) (config : Config) : Except Fault (Except Rejection Admitted) :=
  if r.opcode < 0 ∨ config.functionUnits < r.opcode then
    return .error (.unknownOpcode r.opcode)
  else
    match outputLength r.opcode r.attr r.length with
    | none => return .error .outputOverflow
    | some output => do
      -- The four checks below are masks, so they say what they should for a power of two only.
      let mask ← checkedSub config.alignment 1
      match r.misaligned? output mask with
      | some rejection => return .error rejection
      | none =>
        if r.length = 0 ∨ output = 0 then
          return .error .zeroLength
        else
          r.extents output config.pageSize

end Request

end DmaQueue

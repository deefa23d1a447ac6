/-
  DmaQueue.Fault

  What stops a computation outright, as opposed to a refusal that a caller
  can handle: arithmetic that leaves 64 bits, an index past the end, a
  descriptor field that cannot hold its value, a register access outside the
  control window.
-/
import DmaQueue.Text.Hex

namespace DmaQueue

/-- The reasons for which a computation stops with no answer. -/
inductive Fault where
  /-- A sum, difference or product does not fit the word. -/
  | overflow
  /-- A position past the end of a list. -/
  | outOfRange
  /-- A chunk address that the descriptor's address field cannot hold. -/
  | descriptorAddress
  /-- A chunk length that the descriptor's length field cannot hold. -/
  | descriptorLength
  /-- A register offset that is not a multiple of four. -/
  | registerUnaligned (offset : UInt64)
  /-- A register that does not lie inside the control window. -/
  | registerOutside (offset : UInt64)
  deriving DecidableEq, Repr

/-- The wording of a fault; arithmetic and indexing faults have none. -/
def Fault.message? : Fault → Option String
  | .overflow => none
  | .outOfRange => none
  | .descriptorAddress => some "descriptor address out of range"
  | .descriptorLength => some "descriptor length out of range"
  | .registerUnaligned offset => some s!"unaligned register offset {Hex.marked offset.toNat}"
  | .registerOutside offset => some s!"register offset {Hex.marked offset.toNat} outside window"

end DmaQueue

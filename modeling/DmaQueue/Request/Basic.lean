/-
  DmaQueue.Request.Basic

  A transfer request as the caller makes it, and its record of 32 bytes: three
  64-bit words and two 32-bit words, each with the least significant byte
  first.
-/
import DmaQueue.Bytes.LittleEndian

namespace DmaQueue

/-- A request to move bytes from one virtual range to another through the function units. -/
structure Request where
  /-- Where the bytes come from. -/
  source : UInt64
  /-- Where the bytes go. -/
  dest : UInt64
  /-- How many bytes go in. -/
  length : UInt64
  /-- The function unit that the stream enters. -/
  opcode : Int32
  /-- The bits that chain function units, and what else the units are told. -/
  attr : Int32
  deriving DecidableEq, Repr

namespace Request

/-- The size of a record. -/
def recordSize : Nat := 32

/-- The record of a request. -/
def toRecord (r : Request) : List UInt8 :=
  LittleEndian.encode 8 r.source.toNat ++ LittleEndian.encode 8 r.dest.toNat ++
    LittleEndian.encode 8 r.length.toNat ++ LittleEndian.encode 4 r.opcode.toUInt32.toNat ++
    LittleEndian.encode 4 r.attr.toUInt32.toNat

/-- The number in the `width` bytes of `bytes` at position `start`. -/
def field (bytes : List UInt8) (start width : Nat) : Nat :=
  LittleEndian.decode ((bytes.drop start).take width)

/-- The request of a record. -/
def ofRecord (bytes : List UInt8) : Request :=
  { source := UInt64.ofNat (field bytes 0 8)
    dest := UInt64.ofNat (field bytes 8 8)
    length := UInt64.ofNat (field bytes 16 8)
    opcode := (UInt32.ofNat (field bytes 24 4)).toInt32
    attr := (UInt32.ofNat (field bytes 28 4)).toInt32 }

theorem length_toRecord (r : Request) : r.toRecord.length = recordSize := by
  simp [toRecord, recordSize, LittleEndian.length_encode]

end Request

end DmaQueue

/-
  DmaQueue.Descriptor

  The 64-bit word that tells the accelerator about one chunk of a stream.

      63      56  55  54      34  33            6  5  3  2  0
      attribute   L     length    physical address   0    opcode

  The opcode and the attribute stand only in the first descriptor of a stream;
  `L` marks the last descriptor of the source stream.  The word is written as
  two halves, the low one first.
-/
import DmaQueue.Config

namespace DmaQueue

/-- A descriptor, as its 64-bit word. -/
structure Descriptor where
  /-- The word. -/
  raw : UInt64
  deriving DecidableEq, Repr

namespace Descriptor

/-! ## Packing -/

/-- Whether a chunk address fits the address field: a multiple of 64, and no bit from 34 on. -/
def addressFits (addr : UInt64) : Bool :=
  addr.toNat % 64 == 0 && addr.toNat < 0x4_0000_0000

/-- The word with the given fields, which have to fit theirs. -/
def pack (opcode addr length : Nat) (last : Bool) (attr : Nat) : Descriptor :=
  let flag := if last then 0x80_0000_0000_0000 else 0
  ⟨UInt64.ofNat (opcode + addr + length * 0x4_0000_0000 + flag + attr * 0x100_0000_0000_0000)⟩

/-- The descriptor of a chunk at `addr` with the given opcode and attribute fields; a fault if the
address or the length does not fit. -/
def withFields (opcode attr : Nat) (addr length : UInt64) (last : Bool) :
    Except Fault Descriptor :=
  if !addressFits addr then .error .descriptorAddress
  else if maxChunkLength < length then .error .descriptorLength
  else .ok (pack opcode addr.toNat length.toNat last attr)

/-- The descriptor of a chunk that continues a stream. -/
def chunk (addr length : UInt64) (last : Bool) : Except Fault Descriptor :=
  withFields 0 0 addr length last

/-- The descriptor of the first chunk of a stream: three bits of the opcode and eight bits of the
attribute go with it, in two's complement. -/
def head (addr length : UInt64) (opcode attr : Int32) (last : Bool) :
    Except Fault Descriptor :=
  withFields (opcode.toInt % 8).toNat (attr.toInt % 256).toNat addr length last

/-! ## Reading -/

/-- The chunk's physical address. -/
def address (d : Descriptor) : UInt64 :=
  UInt64.ofNat (d.raw.toNat / 64 % 0x1000_0000 * 64)

/-- The chunk's length. -/
def length (d : Descriptor) : Nat :=
  d.raw.toNat / 0x4_0000_0000 % 0x20_0000

/-- The function unit, in three bits. -/
def opcode (d : Descriptor) : Nat :=
  d.raw.toNat % 8

/-- The attribute, in eight bits. -/
def attr (d : Descriptor) : Nat :=
  d.raw.toNat / 0x100_0000_0000_0000

/-- Whether the chunk is the last one of its stream. -/
def isLast (d : Descriptor) : Bool :=
  d.raw.toNat / 0x80_0000_0000_0000 % 2 == 1

/-! ## Halves -/

/-- The half that is written first. -/
def low (d : Descriptor) : UInt32 :=
  UInt32.ofNat (d.raw.toNat % 0x1_0000_0000)

/-- The half that is written second; the accelerator takes the descriptor on this write. -/
def high (d : Descriptor) : UInt32 :=
  UInt32.ofNat (d.raw.toNat / 0x1_0000_0000)

/-! ## Text -/

/-- The fields of a descriptor in words. -/
def describe (d : Descriptor) : String :=
  s!"Descriptor \x7b address: {Hex.marked d.address.toNat}, length: {d.length}, " ++
    s!"opcode: {d.opcode}, attribute: {d.attr}, last: {d.isLast} \x7d"

end Descriptor

end DmaQueue

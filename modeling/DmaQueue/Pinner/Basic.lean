/-
  DmaQueue.Pinner.Basic

  What the engine asks of the memory manager: to pin the pages of a virtual
  range, so that they keep their physical addresses, and to release them one
  by one.  A pin call may stop early; the pages that it answers are pinned
  then, and the caller has to release them.
-/
import DmaQueue.Trace.Note

namespace DmaQueue

/-- A page that is pinned. -/
structure PinnedPage where
  /-- The virtual address of the page. -/
  virt : UInt64
  /-- The physical address of the page. -/
  phys : UInt64
  deriving DecidableEq, Repr

/-- Why a pin call pinned nothing, or why a region was refused. -/
inductive PinFailure where
  /-- No region maps the page. -/
  | unmapped (page : UInt64)
  /-- The page may not be written to. -/
  | readOnly (page : UInt64)
  /-- The range leaves the address space. -/
  | overflow
  /-- As many pages are pinned as may be. -/
  | limitReached (limit : UInt64)
  /-- The region is not usable, or overlaps another one. -/
  | invalidRegion
  /-- There is no room for another region. -/
  | tableFull
  deriving DecidableEq, Repr

/-- The wording of a pin failure. -/
def PinFailure.message : PinFailure → String
  | .unmapped page => s!"page {Hex.marked page.toNat} is not mapped"
  | .readOnly page => s!"page {Hex.marked page.toNat} is read-only"
  | .overflow => "address range overflows"
  | .limitReached limit => s!"pin limit of {limit.toNat} pages reached"
  | .invalidRegion => "invalid memory region"
  | .tableFull => "region table full"

/-- The memory manager below the engine. -/
class Pinner (P : Type) where
  /-- Pins the pages of the `length` bytes from `address` on, for writing if `writable`. -/
  pin (address length : UInt64) (writable : Bool) :
    Act Note P (Except PinFailure (List PinnedPage))
  /-- Releases one page; `dirty` says that the device wrote to it. -/
  unpin (page : PinnedPage) (dirty : Bool) : Act Note P Unit
  /-- The granule at which pin calls split a range into pages. -/
  granule (pinner : P) : UInt64

end DmaQueue

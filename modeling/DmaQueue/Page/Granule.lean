/-
  DmaQueue.Page.Granule

  Rounding of addresses and lengths to a granule.  A granule is normally a
  power of two, and then `offset` is the remainder and `alignDown` the greatest
  multiple not above the address.  For any other granule both are still
  defined: they work on the bits of `granule - 1`.
-/
import DmaQueue.Word

namespace DmaQueue.Page

open Word

/-- The granule of the region table: 4096 bytes. -/
def standardSize : UInt64 := 4096

/-! ## Rounding -/

/-- The bits of `addr` below the granule. -/
def offset (addr granule : UInt64) : Except Fault UInt64 := do
  let mask ← checkedSub granule 1
  return addr &&& mask

/-- `addr` without the bits below the granule. -/
def alignDown (addr granule : UInt64) : Except Fault UInt64 := do
  let low ← offset addr granule
  return addr - low

/-- The next aligned address that is not below `addr`; a fault already where `addr + granule`
leaves the word. -/
def alignUp (addr granule : UInt64) : Except Fault UInt64 := do
  -- The sum is taken before the one is subtracted, which is what makes it leave the word early.
  let above ← checkedAdd addr granule
  let reach ← checkedSub above 1
  alignDown reach granule

/-! ## Pages and bytes -/

/-- The size in bytes of `pages` standard pages. -/
def toBytes (pages : UInt64) : Except Fault UInt64 :=
  checkedMul pages standardSize

/-- The number of standard pages that hold `bytes` bytes. -/
def ofBytes (bytes : UInt64) : Except Fault UInt64 := do
  let rounded ← alignUp bytes standardSize
  return rounded / standardSize

/-- The number of pages that the `length` bytes from `addr` on touch; an empty range touches
none. -/
def touched (addr length granule : UInt64) : Except Fault UInt64 :=
  if length = 0 then
    return 0
  else do
    let first ← alignDown addr granule
    -- The last byte, not the end: a range may reach to the top of the address space.
    let reach ← checkedAdd addr (length - 1)
    let last ← alignDown reach granule
    let gap ← checkedSub last first
    return gap / granule + 1

end DmaQueue.Page

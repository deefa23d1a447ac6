/-
  DmaQueue.Page.Region

  A region maps a range of virtual addresses to physical memory of the same
  size.  A region is usable if it is made of whole standard pages and ends
  inside the address space.
-/
import DmaQueue.Page.Granule

namespace DmaQueue

/-- A mapped range of virtual addresses. -/
structure Region where
  /-- The first virtual address. -/
  virt : UInt64
  /-- The physical address that `virt` maps to. -/
  phys : UInt64
  /-- The size in bytes. -/
  size : UInt64
  /-- Whether the device may write to the region. -/
  writable : Bool
  deriving DecidableEq, Repr

namespace Region

open Word

/-- The region at `base` whose physical addresses are its virtual ones. -/
def identity (base size : UInt64) : Region :=
  { virt := base, phys := base, size, writable := true }

/-- Whether the region is made of whole pages, is not empty, and ends inside the address space. -/
def usable (r : Region) : Bool :=
  0 < r.size && r.virt % Page.standardSize == 0 && r.phys % Page.standardSize == 0 &&
    r.size % Page.standardSize == 0 && (add? r.virt r.size).isSome

/-- Whether `addr` is a virtual address of the region. -/
def contains (r : Region) (addr : UInt64) : Bool :=
  r.virt ≤ addr && addr - r.virt < r.size

/-- The physical address of `addr`, if the region contains it. -/
def physOf (r : Region) (addr : UInt64) : Except Fault (Option UInt64) :=
  if r.contains addr then
    some <$> checkedAdd r.phys (addr - r.virt)
  else
    return none

/-- Whether the two regions share a virtual address. -/
def overlaps (r s : Region) : Except Fault Bool := do
  -- The end of `r` is computed only where its beginning leaves the question open.
  let stop ← checkedAdd s.virt s.size
  if r.virt < stop then
    let stop' ← checkedAdd r.virt r.size
    return s.virt < stop'
  else
    return false

/-- Whether one of the regions shares a virtual address with `s`; the first that does settles it. -/
def anyOverlaps (s : Region) : List Region → Except Fault Bool
  | [] => return false
  | r :: rest => do
    if ← r.overlaps s then
      return true
    else
      anyOverlaps s rest

end Region

end DmaQueue

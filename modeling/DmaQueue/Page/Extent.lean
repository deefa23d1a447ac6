/-
  DmaQueue.Page.Extent

  How a byte range lies on its pages: where the first page starts, how many
  pages there are, and how much of the range falls on the first and on the
  last of them.
-/
import DmaQueue.Page.Granule

namespace DmaQueue

/-- The geometry of a byte range on pages. -/
structure Extent where
  /-- The address of the first page. -/
  firstPage : UInt64
  /-- The number of pages touched. -/
  pages : UInt64
  /-- Where the range begins within its first page. -/
  offset : UInt64
  /-- The bytes on the first page: the rest of that page, or the whole range if it is shorter. -/
  firstLength : UInt64
  /-- The bytes on the last page. -/
  lastLength : UInt64
  deriving DecidableEq, Repr

namespace Extent

open Word

/-- The geometry of the `length` bytes from `addr` on.  An empty range has none, nor has one whose
end leaves the address space. -/
def ofRange (addr length granule : UInt64) : Except Fault (Option Extent) :=
  if length = 0 then
    return none
  else
    match add? addr length with
    | none => return none
    | some stop => do
      let firstPage ← Page.alignDown addr granule
      let lastPage ← Page.alignDown (stop - 1) granule
      let offset ← Page.offset addr granule
      let gap ← checkedSub lastPage firstPage
      return some
        { firstPage
          pages := gap / granule + 1
          offset
          firstLength := min (granule - offset) length
          lastLength := stop - lastPage }

end Extent

end DmaQueue

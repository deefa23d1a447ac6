/-
  DmaQueue.Transfer.PinnedRange

  One side of a transfer: its pinned pages, and how the bytes lie on them.
  Each page carries one chunk.
-/
import DmaQueue.Page.Extent
import DmaQueue.Pinner.Basic

namespace DmaQueue

/-- A byte range whose pages are pinned. -/
structure PinnedRange where
  /-- The pages, lowest first. -/
  pages : List PinnedPage
  /-- Where the range begins within its first page. -/
  offset : UInt64
  /-- The bytes on the first page. -/
  firstLength : UInt64
  /-- The bytes on the last page. -/
  lastLength : UInt64
  deriving DecidableEq, Repr

namespace PinnedRange

/-- The range with the given geometry on the given pages. -/
def ofExtent (pages : List PinnedPage) (extent : Extent) : PinnedRange :=
  { pages
    offset := extent.offset
    firstLength := extent.firstLength
    lastLength := extent.lastLength }

/-- The number of pages. -/
def pageCount (range : PinnedRange) : Nat :=
  range.pages.length

/-- The physical address and the length of chunk number `index`.  The first chunk starts at the
offset; the last of several has the last page's length; one in between is a whole page. -/
def chunk (range : PinnedRange) (index : Nat) (pageSize : UInt64) :
    Except Fault (UInt64 × UInt64) :=
  match range.pages[index]? with
  | none => .error .outOfRange
  | some page =>
    if index = 0 then do
      let start ← Word.checkedAdd page.phys range.offset
      return (start, range.firstLength)
    else if index + 1 = range.pageCount then
      return (page.phys, range.lastLength)
    else
      return (page.phys, pageSize)

theorem lt_of_chunk_eq_ok {range : PinnedRange} {index : Nat} {pageSize : UInt64}
    {piece : UInt64 × UInt64} (h : range.chunk index pageSize = .ok piece) :
    index < range.pageCount := by
  unfold chunk at h
  split at h
  · simp at h
  · rename_i page hpage
    exact (List.getElem?_eq_some_iff.1 hpage).1

end PinnedRange

end DmaQueue

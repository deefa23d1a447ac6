/-
  DmaQueue.Proofs.Transfer.Chunks

  The chunks of a pinned range are the pieces into which the page boundaries cut
  it, moved to the physical pages.
-/
import DmaQueue.Proofs.Page.Edges
import DmaQueue.Transfer.PinnedRange

namespace DmaQueue.PinnedRange

open Extent (edge pieces)

variable {extent : Extent} {addr length i : Nat} {pageSize : UInt64} {pages : List PinnedPage}
  {page : PinnedPage}

/-- Chunk number `i` is piece number `i`, at the same distance from the beginning of the page.  Only
the first chunk begins at a sum, which has to be a word. -/
theorem chunk_ofExtent (hspans : extent.Spans addr length pageSize.toNat)
    (hsize : 0 < pageSize.toNat) (hpages : pages.length = extent.pages.toNat)
    (hpage : pages[i]? = some page)
    (hroom : i = 0 → page.phys.toNat + addr % pageSize.toNat < UInt64.size) :
    ∃ start size, (ofExtent pages extent).chunk i pageSize = .ok (start, size) ∧
      start.toNat = page.phys.toNat +
        (edge addr length pageSize.toNat i - pageSize.toNat * (addr / pageSize.toNat + i)) ∧
      size.toNat = edge addr length pageSize.toNat (i + 1) - edge addr length pageSize.toNat i := by
  have hcount : pages.length = pieces addr length pageSize.toNat := hpages.trans hspans.pages
  have hi : i < pieces addr length pageSize.toNat := by
    rw [← hcount]
    exact (List.getElem?_eq_some_iff.1 hpage).1
  have hlength := hspans.pos
  unfold chunk
  rw [show (ofExtent pages extent).pages[i]? = some page from hpage]
  by_cases hfirst : i = 0
  -- The first chunk begins with the range, inside its page.
  · subst hfirst
    have hbegin := Nat.div_add_mod addr pageSize.toNat
    have hoffset : page.phys.toNat + extent.offset.toNat < UInt64.size := by
      rw [hspans.offset]
      exact hroom rfl
    refine ⟨page.phys + extent.offset, extent.firstLength, ?_, ?_, ?_⟩
    · simp only [↓reduceIte]
      rw [show (ofExtent pages extent).offset = extent.offset from rfl,
        Word.checkedAdd_of_lt hoffset]
      rfl
    · rw [Word.toNat_add_of_lt hoffset, hspans.offset, Extent.edge_zero, Nat.add_zero]
      omega
    · rw [hspans.firstLength, Nat.zero_add, Extent.width_zero hsize]
  · have hpos : 0 < i := Nat.pos_of_ne_zero hfirst
    -- Every later chunk begins with its page; only the last one may end before its page does.
    have hedge := Extent.edge_of_pos hsize hlength hpos hi
    simp only [hfirst, ↓reduceIte]
    by_cases hlast : i + 1 = pages.length
    · refine ⟨page.phys, extent.lastLength, if_pos hlast, ?_, ?_⟩
      · rw [hedge]
        omega
      · rw [hspans.lastLength, Extent.width_last hsize hlength hpos (hlast.trans hcount)]
    · refine ⟨page.phys, pageSize, if_neg hlast, ?_, ?_⟩
      · rw [hedge]
        omega
      · have hbetween : i + 1 < pieces addr length pageSize.toNat := by omega
        rw [Extent.width_between hsize hlength hpos hbetween]

end DmaQueue.PinnedRange

/-
  DmaQueue.Proofs.Transfer.Placed

  A range that is pinned on the pages of a region table.  Each of its chunks
  holds the bytes of one piece, at the physical addresses that the regions map
  them to, inside one page (`Placed.chunk`).
-/
import DmaQueue.Proofs.Pinner.Mapping
import DmaQueue.Proofs.Transfer.Chunks

namespace DmaQueue

open Extent (edge pieces)

namespace PinnedRange

/-- The range is the `length` bytes from `addr` on, and its pages, one above the other, are where
the regions map them. -/
structure Placed (regions : List Region) (range : PinnedRange) (addr length : Nat) : Prop where
  geometry : ∃ extent : Extent, extent.Spans addr length 4096 ∧
    range = ofExtent range.pages extent ∧ range.pages.length = extent.pages.toNat
  upwards : RegionTable.Upwards (4096 * (addr / 4096)) range.pages
  maps : ∀ page ∈ range.pages, ∃ writable, RegionTable.Maps regions writable page

variable {regions : List Region} {range : PinnedRange} {addr length i top : Nat}

theorem Placed.length_pos (h : Placed regions range addr length) : 0 < length := by
  obtain ⟨_, hspans, -⟩ := h.geometry
  exact hspans.pos

theorem Placed.pageCount_eq (h : Placed regions range addr length) :
    range.pageCount = pieces addr length 4096 := by
  obtain ⟨_, hspans, -, hpages⟩ := h.geometry
  exact hpages.trans hspans.pages

/-- Where a range lies decides which its pages are. -/
theorem Placed.pages_unique {range' : PinnedRange} (h : Placed regions range addr length)
    (h' : Placed regions range' addr length) : range.pages = range'.pages := by
  have hlength : range.pages.length = range'.pages.length :=
    h.pageCount_eq.trans h'.pageCount_eq.symm
  apply List.ext_getElem hlength
  intro i hi hi'
  obtain ⟨writable, hmaps⟩ := h.maps _ (List.getElem_mem hi)
  obtain ⟨writable', hmaps'⟩ := h'.maps _ (List.getElem_mem hi')
  apply hmaps.eq_of_virt hmaps'
  rw [← UInt64.toNat_inj, h.upwards i _ (List.getElem?_eq_getElem hi),
    h'.upwards i _ (List.getElem?_eq_getElem hi')]

/-- A chunk of a placed range lies as far into its physical page as its piece into the virtual one,
and is as long as that. -/
theorem Placed.chunk_eq_ok (h : Placed regions range addr length)
    (husable : ∀ r ∈ regions, r.Usable) (hi : i < range.pageCount) :
    ∃ page start size, range.pages[i]? = some page ∧
      page.virt.toNat = 4096 * (addr / 4096) + i * 4096 ∧ page.phys.toNat % 4096 = 0 ∧
      range.chunk i Page.standardSize = .ok (start, size) ∧
      start.toNat = page.phys.toNat + (edge addr length 4096 i - page.virt.toNat) ∧
      size.toNat = edge addr length 4096 (i + 1) - edge addr length 4096 i := by
  obtain ⟨extent, hspans, hrange, hpages⟩ := h.geometry
  obtain ⟨page, hpage⟩ : ∃ page, range.pages[i]? = some page :=
    ⟨_, List.getElem?_eq_getElem hi⟩
  -- Page number `i` of the range is the page of piece number `i`.
  have hvirt : page.virt.toNat = 4096 * (addr / 4096) + i * 4096 := h.upwards i page hpage
  obtain ⟨writable, hmaps⟩ := h.maps page (List.mem_of_getElem? hpage)
  have hphys := hmaps.phys_mod husable (by omega)
  -- The last page of the address space still has room for the chunk.
  have hroom : page.phys.toNat + addr % Page.standardSize.toNat < UInt64.size := by
    have hlt := page.phys.toNat_lt_size
    rw [show UInt64.size = 4096 * 0x10_0000_0000_0000 from rfl] at hlt ⊢
    show page.phys.toNat + addr % 4096 < _
    omega
  obtain ⟨start, size, hchunk, hstart, hsize⟩ := chunk_ofExtent
    (show extent.Spans addr length Page.standardSize.toNat from hspans) (by decide) hpages hpage
    fun _ => hroom
  refine ⟨page, start, size, hpage, hvirt, hphys, hrange ▸ hchunk, ?_, hsize⟩
  rw [hstart, hvirt]
  show page.phys.toNat + (edge addr length 4096 i - 4096 * (addr / 4096 + i)) = _
  omega

/-- What a chunk of a placed range is: the bytes of one piece, translated, inside one page. -/
structure IsPiece (regions : List Region) (addr length i : Nat) (start size : UInt64) : Prop where
  size_eq : size.toNat = edge addr length 4096 (i + 1) - edge addr length 4096 i
  size_pos : 1 ≤ size.toNat
  size_le : size.toNat ≤ 4096
  start_mod : start.toNat % 4096 = edge addr length 4096 i % 4096
  page : start.toNat / 4096 = (start.toNat + size.toNat - 1) / 4096
  bytes : (List.range' start.toNat size.toNat).map some =
    (List.range' (edge addr length 4096 i)
      (edge addr length 4096 (i + 1) - edge addr length 4096 i)).map (Region.translate regions)

theorem Placed.chunk (h : Placed regions range addr length)
    (hbelow : RegionTable.Below top regions) (hi : i < range.pageCount) :
    ∃ start size, range.chunk i Page.standardSize = .ok (start, size) ∧
      start.toNat + size.toNat ≤ top ∧ IsPiece regions addr length i start size := by
  obtain ⟨page, start, size, hpage, hvirt, hphys, hchunk, hdistance, hpiece⟩ :=
    h.chunk_eq_ok (fun r hr => (hbelow r hr).1) hi
  obtain ⟨writable, hmaps⟩ := h.maps page (List.mem_of_getElem? hpage)
  obtain ⟨hroom, htranslate⟩ := hmaps.translate hbelow (by omega)
  have hbounds := Extent.edge_bounds (show 0 < 4096 by decide) h.length_pos (h.pageCount_eq ▸ hi)
  refine ⟨start, size, hchunk, by omega, ⟨hpiece, by omega, by omega, by omega, by omega, ?_⟩⟩
  -- Byte number `k` of the piece lies as far into its page as byte number `k` of the chunk.
  rw [← hpiece]
  apply List.ext_getElem (by simp)
  intro k hk _
  simp only [List.length_map, List.length_range'] at hk
  simp only [List.getElem_map, List.getElem_range', Nat.one_mul]
  have hbyte : edge addr length 4096 i + k =
      page.virt.toNat + (edge addr length 4096 i - page.virt.toNat + k) := by omega
  rw [hbyte, htranslate _ (by omega), hdistance, Nat.add_assoc]

/-- The pieces put together are the range, translated. -/
theorem Placed.flatMap_pieces (h : Placed regions range addr length) :
    (List.range range.pageCount).flatMap (fun i =>
      (List.range' (edge addr length 4096 i)
        (edge addr length 4096 (i + 1) - edge addr length 4096 i)).map (Region.translate regions)) =
      (List.range' addr length).map (Region.translate regions) := by
  rw [h.pageCount_eq, ← Extent.flatMap_pieces (show 0 < 4096 by decide) h.length_pos,
    List.map_flatMap]

end PinnedRange

end DmaQueue

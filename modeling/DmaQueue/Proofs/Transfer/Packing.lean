/-
  DmaQueue.Proofs.Transfer.Packing

  Which descriptors of a transfer can be packed, once its ranges are pinned on
  the pages of a region table.  No chunk is too long.  Its address fits exactly
  if the page lies within the reach of the address field and, for the first
  chunk of a side, the range begins at a multiple of 64 (`packs_iff`).
-/
import DmaQueue.Proofs.Transfer.Faithful

namespace DmaQueue

open Extent (edge)

/-! ## Chunks -/

/-- A chunk of a placed range is short enough for its field.  The pages begin at multiples of 64, so
only the offset of the first chunk can make an address that is not one. -/
theorem PinnedRange.Placed.chunk_packs {regions : List Region} {range : PinnedRange}
    {addr length i : Nat} {page : PinnedPage} (h : range.Placed regions addr length)
    (husable : ∀ r ∈ regions, r.Usable) (hpage : range.pages[i]? = some page) :
    ∃ start size, range.chunk i Page.standardSize = .ok (start, size) ∧ size ≤ maxChunkLength ∧
      (Descriptor.addressFits start = true ↔
        (i = 0 → addr % 64 = 0) ∧ page.phys.toNat < 0x4_0000_0000) := by
  have hi : i < range.pageCount := (List.getElem?_eq_some_iff.1 hpage).1
  obtain ⟨page', start, size, hpage', hvirt, hphys, hchunk, hstart, hsize⟩ :=
    h.chunk_eq_ok husable hi
  obtain rfl : page = page' := Option.some.inj (hpage.symm.trans hpage')
  have hbounds := Extent.edge_bounds (show 0 < 4096 by decide) h.length_pos (h.pageCount_eq ▸ hi)
  have hle : size ≤ maxChunkLength := by
    rw [UInt64.le_iff_toNat_le]
    show size.toNat ≤ 2097151
    omega
  refine ⟨start, size, hchunk, hle, ?_⟩
  rw [Descriptor.addressFits_iff]
  by_cases hfirst : i = 0
  · rw [hfirst, Extent.edge_zero] at hstart
    omega
  · have hedge := Extent.edge_of_pos (show 0 < 4096 by decide) h.length_pos
      (Nat.pos_of_ne_zero hfirst) (h.pageCount_eq ▸ hi)
    omega

namespace Transfer

variable {t : Transfer} {regions : List Region} {side : Side} {i : Nat} {page : PinnedPage}

theorem exists_withFields_of_chunk {pageSize start size : UInt64}
    (h : (t.range side).chunk i pageSize = .ok (start, size)) :
    ∃ opcode attr last,
      t.descriptor pageSize side i = Descriptor.withFields opcode attr start size last := by
  simp only [descriptor, h, bind, Except.bind]
  split
  · exact ⟨_, _, _, rfl⟩
  · exact ⟨_, _, _, rfl⟩

/-- The one fault of a descriptor is that its address does not fit. -/
theorem descriptor_of_placed (h : (t.range side).Placed regions (t.addr side) (t.size side))
    (husable : ∀ r ∈ regions, r.Usable) (hpage : (t.range side).pages[i]? = some page) :
    (∃ d, t.descriptor Page.standardSize side i = .ok d) ∧
        (i = 0 → t.addr side % 64 = 0) ∧ page.phys.toNat < 0x4_0000_0000 ∨
      t.descriptor Page.standardSize side i = .error .descriptorAddress ∧
        ¬ ((i = 0 → t.addr side % 64 = 0) ∧ page.phys.toNat < 0x4_0000_0000) := by
  obtain ⟨start, size, hchunk, hsize, hfits⟩ := h.chunk_packs husable hpage
  obtain ⟨opcode, attr, last, hd⟩ := exists_withFields_of_chunk hchunk
  rw [hd, Descriptor.withFields_of_le hsize, ← hfits]
  by_cases haddress : Descriptor.addressFits start = true
  · rw [if_pos haddress]
    exact .inl ⟨⟨_, rfl⟩, haddress⟩
  · rw [if_neg haddress]
    exact .inr ⟨rfl, haddress⟩

/-! ## All descriptors of a transfer -/

/-- Every descriptor of the transfer can be packed. -/
def Packs (t : Transfer) (pageSize : UInt64) : Prop :=
  ∀ side i, i < (t.range side).pageCount → ∃ d, t.descriptor pageSize side i = .ok d

/-- Both ranges begin at multiples of 64, and their pages lie within the reach of the address
field. -/
structure Addressable (t : Transfer) : Prop where
  aligned : ∀ side, t.addr side % 64 = 0
  reach : ∀ side, ∀ page ∈ (t.range side).pages, page.phys.toNat < 0x4_0000_0000

theorem packs_iff (h : ∀ side, (t.range side).Placed regions (t.addr side) (t.size side))
    (husable : ∀ r ∈ regions, r.Usable) : t.Packs Page.standardSize ↔ t.Addressable := by
  constructor
  · intro hpacks
    have hfits : ∀ {side i page}, (t.range side).pages[i]? = some page →
        (i = 0 → t.addr side % 64 = 0) ∧ page.phys.toNat < 0x4_0000_0000 := by
      intro side i page hpage
      obtain ⟨d, hd⟩ := hpacks side i (List.getElem?_eq_some_iff.1 hpage).1
      rcases descriptor_of_placed (h side) husable hpage with ⟨-, hfits⟩ | ⟨hfault, -⟩
      · exact hfits
      · rw [hd] at hfault
        simp at hfault
    constructor
    case aligned =>
      intro side
      -- A range has a first page, whose chunk begins where the range does.
      have hfirst : 0 < (t.range side).pages.length := by
        show 0 < (t.range side).pageCount
        rw [(h side).pageCount_eq]
        exact Nat.succ_pos _
      exact (hfits (List.getElem?_eq_getElem hfirst)).1 rfl
    case reach =>
      intro side page hmem
      obtain ⟨i, hpage⟩ := List.mem_iff_getElem?.1 hmem
      exact (hfits hpage).2
  · intro haddressable side i hi
    have hpage := List.getElem?_eq_getElem hi
    rcases descriptor_of_placed (h side) husable hpage with ⟨hpacked, -⟩ | ⟨-, hfits⟩
    · exact hpacked
    · exact absurd ⟨fun _ => haddressable.aligned side,
        haddressable.reach side _ (List.getElem_mem hi)⟩ hfits

end Transfer

end DmaQueue

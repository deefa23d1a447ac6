/-
  DmaQueue.Proofs.Transfer.Tiling

  The chunks of a range whose pages all lie the same distance from where they
  are mapped.  One after the other they cover the range at that distance, each
  address once (`chunks_tile`).  Positions are integers here, since physical
  pages may also lie below the virtual ones.
-/
import DmaQueue.Proofs.Transfer.Chunks
import Mathlib.Data.Int.ConditionallyCompleteOrder
import Mathlib.Order.CompletePartialOrder
import Mathlib.Order.ConditionallyCompleteLattice.Basic
import Mathlib.Order.Interval.Set.Disjoint
import Mathlib.Order.Interval.Set.LinearOrder

namespace DmaQueue

open Extent (edge pieces)

/-- The physical addresses of a page. -/
def PinnedPage.frame (page : PinnedPage) (granule : UInt64) : Set ℤ :=
  Set.Ico (page.phys.toNat : ℤ) (page.phys.toNat + granule.toNat)

namespace PinnedRange

/-! ## Pieces that follow one another -/

/-- The addresses of a piece of memory, which is given by its first address and its size. -/
def addresses (piece : UInt64 × UInt64) : Set ℤ :=
  Set.Ico (piece.1.toNat : ℤ) (piece.1.toNat + piece.2.toNat)

/-- Pieces that are not empty and lie one after the other without a gap, from `low` up to `high`. -/
inductive Tiles : ℤ → List (UInt64 × UInt64) → ℤ → Prop
  | nil {low : ℤ} : Tiles low [] low
  | cons {low high : ℤ} {piece : UInt64 × UInt64} {rest : List (UInt64 × UInt64)}
      (hbegin : (piece.1.toNat : ℤ) = low) (hpos : 0 < piece.2.toNat)
      (hrest : Tiles (low + piece.2.toNat) rest high) : Tiles low (piece :: rest) high

namespace Tiles

variable {low mid high : ℤ} {chunks : List (UInt64 × UInt64)} {piece : UInt64 × UInt64}

/-- One more piece, where the others end. -/
theorem concat (h : Tiles low chunks mid) (hbegin : (piece.1.toNat : ℤ) = mid)
    (hpos : 0 < piece.2.toNat) : Tiles low (chunks ++ [piece]) (mid + piece.2.toNat) := by
  induction h with
  | nil => exact .cons hbegin hpos .nil
  | cons hfirst hsome _ ih => exact .cons hfirst hsome (ih hbegin)

theorem pos (h : Tiles low chunks high) : ∀ piece ∈ chunks, 0 < piece.2.toNat := by
  induction h with
  | nil => exact List.forall_mem_nil _
  | cons _ hpos _ ih => exact List.forall_mem_cons.2 ⟨hpos, ih⟩

theorem low_le (h : Tiles low chunks high) : ∀ piece ∈ chunks, low ≤ piece.1.toNat := by
  induction h with
  | nil => exact List.forall_mem_nil _
  | cons hbegin _ _ ih =>
    refine List.forall_mem_cons.2 ⟨hbegin.ge, fun piece hpiece => ?_⟩
    have hrest := ih piece hpiece
    omega

theorem add_sum (h : Tiles low chunks high) :
    low + ((chunks.map (·.2.toNat)).sum : ℕ) = high := by
  induction h with
  | nil => exact Int.add_zero _
  | cons _ _ _ ih =>
    rw [List.map_cons, List.sum_cons, Nat.cast_add, ← Int.add_assoc]
    exact ih

theorem le (h : Tiles low chunks high) : low ≤ high := by
  have hsum := h.add_sum
  omega

/-- Every piece begins where the one before it ends. -/
theorem consecutive (h : Tiles low chunks high) :
    chunks.IsChain fun lower upper => lower.1.toNat + lower.2.toNat = upper.1.toNat := by
  induction h with
  | nil => exact .nil
  | cons hbegin _ hrest ih =>
    -- The first of the rest begins where the rest does.
    cases hrest with
    | nil => exact .singleton _
    | cons hnext _ _ =>
      refine .cons_cons ?_ ih
      omega

/-- Every piece ends before any later one begins. -/
theorem ascending (h : Tiles low chunks high) :
    chunks.Pairwise fun lower upper => lower.1.toNat + lower.2.toNat ≤ upper.1.toNat := by
  induction h with
  | nil => exact .nil
  | cons hbegin _ hrest ih =>
    refine .cons (fun upper hupper => ?_) ih
    have hlow := hrest.low_le upper hupper
    omega

theorem disjoint (h : Tiles low chunks high) :
    chunks.Pairwise fun lower upper => Disjoint (addresses lower) (addresses upper) := by
  refine h.ascending.imp fun hle => ?_
  rw [addresses, addresses, Set.Ico_disjoint_Ico]
  omega

/-- Together the pieces are what they tile. -/
theorem iUnion_addresses (h : Tiles low chunks high) :
    ⋃ piece ∈ chunks, addresses piece = Set.Ico low high := by
  induction h with
  | nil => simp
  | cons hbegin _ hrest ih =>
    simp only [List.mem_cons, Set.iUnion_iUnion_eq_or_left]
    rw [ih, addresses, hbegin]
    exact Set.Ico_union_Ico_eq_Ico (by omega) hrest.le

end Tiles

/-! ## Chunks on pages that are moved alike -/

/-- The pages are those of the extent, in order, and each lies `shift` bytes from where it is
mapped. -/
structure Shifted (pages : List PinnedPage) (extent : Extent) (granule : Nat) (shift : ℤ) :
    Prop where
  count : pages.length = extent.pages.toNat
  virt : ∀ i page, pages[i]? = some page →
    page.virt.toNat = extent.firstPage.toNat + i * granule
  phys : ∀ page ∈ pages, (page.phys.toNat : ℤ) = page.virt.toNat + shift

variable {extent : Extent} {addr length i n : Nat} {granule : UInt64} {pages : List PinnedPage}
  {page : PinnedPage} {shift : ℤ}

/-- Page number `i` lies at the boundary number `i`, moved. -/
theorem Shifted.phys_eq (h : Shifted pages extent granule.toNat shift)
    (hspans : extent.Spans addr length granule.toNat) (hpage : pages[i]? = some page) :
    (page.phys.toNat : ℤ) = (granule.toNat * (addr / granule.toNat + i) : ℕ) + shift := by
  rw [h.phys page (List.mem_of_getElem? hpage), h.virt i page hpage, hspans.firstPage, Nat.mul_add,
    Nat.mul_comm i]

/-- Chunk number `i` is piece number `i` of the range, moved, and lies in its page. -/
theorem Shifted.chunk_eq_ok (h : Shifted pages extent granule.toNat shift)
    (hspans : extent.Spans addr length granule.toNat) (hgranule : 0 < granule.toNat)
    (hroom : addr + shift < UInt64.size) (hpage : pages[i]? = some page) :
    ∃ start size, (ofExtent pages extent).chunk i granule = .ok (start, size) ∧
      (start.toNat : ℤ) = edge addr length granule.toNat i + shift ∧
      start.toNat + size.toNat = edge addr length granule.toNat (i + 1) + shift ∧
      0 < size.toNat ∧ addresses (start, size) ⊆ page.frame granule := by
  have hi : i < pieces addr length granule.toNat := by
    rw [pieces, ← hspans.pages, ← h.count]
    exact (List.getElem?_eq_some_iff.1 hpage).1
  have hphys := h.phys_eq hspans hpage
  obtain ⟨hlow, hlt, hhigh⟩ := Extent.edge_bounds hgranule hspans.pos hi
  -- The first chunk begins where the range does.
  have hfirst : i = 0 → page.phys.toNat + addr % granule.toNat < UInt64.size := by
    rintro rfl
    have hsplit := Nat.div_add_mod addr granule.toNat
    rw [Nat.add_zero] at hphys
    omega
  obtain ⟨start, size, hchunk, hstart, hsize⟩ :=
    chunk_ofExtent hspans hgranule h.count hpage hfirst
  refine ⟨start, size, hchunk, by omega, by omega, by omega, Set.Ico_subset_Ico ?_ ?_⟩
  · show (page.phys.toNat : ℤ) ≤ start.toNat
    omega
  · show (start.toNat + size.toNat : ℤ) ≤ page.phys.toNat + granule.toNat
    omega

/-- The first `n` chunks tile the first `n` pieces of the range, moved. -/
theorem Shifted.tiles (h : Shifted pages extent granule.toNat shift)
    (hspans : extent.Spans addr length granule.toNat) (hgranule : 0 < granule.toNat)
    (hroom : addr + shift < UInt64.size) (hn : n ≤ pages.length) :
    ∃ chunks, (List.range n).map ((ofExtent pages extent).chunk · granule) = chunks.map .ok ∧
      Tiles (addr + shift) chunks (edge addr length granule.toNat n + shift) := by
  -- By the number of the chunk: the next one begins where those before it end.
  induction n with
  | zero =>
    rw [Extent.edge_zero]
    exact ⟨[], rfl, .nil⟩
  | succ n ih =>
    obtain ⟨chunks, hchunks, htiles⟩ := ih (by omega)
    obtain ⟨start, size, hpiece, hbegin, hend, hpos, -⟩ :=
      h.chunk_eq_ok hspans hgranule hroom
        (List.getElem?_eq_getElem (show n < pages.length by omega))
    refine ⟨chunks ++ [(start, size)], ?_, ?_⟩
    · rw [List.range_succ, List.map_append, hchunks, List.map_singleton, hpiece, List.map_append]
      rfl
    · rw [← hend, hbegin]
      exact htiles.concat hbegin hpos

/-- The chunks of a range tile it, moved to its physical pages: there is one for each page and it
lies in that page; none is empty; each begins where the one before it ends, so that they are in
ascending order and pairwise disjoint; and together they are exactly the range, moved, so that their
sizes add up to its length.  The granule is a power of two, the range one that has an extent, the
pages lie in order, all the same distance from where they are mapped, and the range, moved, begins
in the address space. -/
theorem chunks_tile (addr length granule : UInt64) (extent : Extent) (pages : List PinnedPage)
    (shift : ℤ) (hpower : Word.isPowerOfTwo granule = true)
    (hextent : Extent.ofRange addr length granule = .ok (some extent))
    (hshifted : Shifted pages extent granule.toNat shift)
    (hroom : addr.toNat + shift < UInt64.size) :
    ∃ chunks : List (UInt64 × UInt64),
      (List.range pages.length).map ((ofExtent pages extent).chunk · granule) =
          chunks.map .ok ∧
        (∀ (i : Nat) page piece, pages[i]? = some page → chunks[i]? = some piece →
          addresses piece ⊆ page.frame granule) ∧
        (∀ piece ∈ chunks, 0 < piece.2.toNat) ∧
        (chunks.IsChain fun lower upper => lower.1.toNat + lower.2.toNat = upper.1.toNat) ∧
        (chunks.Pairwise fun lower upper => lower.1.toNat + lower.2.toNat ≤ upper.1.toNat) ∧
        (chunks.Pairwise fun lower upper => Disjoint (addresses lower) (addresses upper)) ∧
        ⋃ piece ∈ chunks, addresses piece =
          Set.Ico (addr.toNat + shift) (addr.toNat + length.toNat + shift) ∧
        (chunks.map (·.2.toNat)).sum = length.toNat := by
  have hspans := Extent.spans_of_ofRange hpower hextent
  have hgranule := Word.toNat_pos_of_isPowerOfTwo hpower
  obtain ⟨chunks, hchunks, htiles⟩ := hshifted.tiles hspans hgranule hroom (Nat.le_refl _)
  have hend : (edge addr.toNat length.toNat granule.toNat pages.length : ℤ) =
      addr.toNat + length.toNat := by
    rw [hshifted.count, hspans.pages]
    exact_mod_cast Extent.edge_pieces hgranule hspans.pos
  rw [hend] at htiles
  refine ⟨chunks, hchunks, fun i page piece hpage hpiece => ?_, htiles.pos, htiles.consecutive,
    htiles.ascending, htiles.disjoint, htiles.iUnion_addresses, ?_⟩
  · obtain ⟨_, _, hfound, -, -, -, hinside⟩ :=
      hshifted.chunk_eq_ok hspans hgranule hroom hpage
    -- What the list has at the number of the page is the chunk of that number.
    have hat := congrArg (·[i]?) hchunks
    have hi : i < pages.length := (List.getElem?_eq_some_iff.1 hpage).1
    simp only [List.getElem?_map, List.getElem?_range hi, hpiece, Option.map_some, hfound,
      Option.some.injEq, Except.ok.injEq] at hat
    exact hat ▸ hinside
  · have hsum := htiles.add_sum
    omega

/-- Three pages that lie half a page below where they are mapped. -/
def threePages : List PinnedPage :=
  [⟨0x1000, 0x800⟩, ⟨0x2000, 0x1800⟩, ⟨0x3000, 0x2800⟩]

/-- The end of the first, the whole of the second and the beginning of the third. -/
theorem chunks_of_threePages :
    ∃ extent, Extent.ofRange 0x1fc0 0x1080 0x1000 = .ok (some extent) ∧
      (List.range 3).map ((ofExtent threePages extent).chunk · 0x1000) =
        [.ok (0x17c0, 0x40), .ok (0x1800, 0x1000), .ok (0x2800, 0x40)] ∧
      ⋃ piece ∈ [(0x17c0, 0x40), (0x1800, 0x1000), (0x2800, 0x40)], addresses piece =
        Set.Ico 0x17c0 0x2840 := by
  have hextent :
      Extent.ofRange 0x1fc0 0x1080 0x1000 = .ok (some ⟨0x1000, 3, 0xfc0, 0x40, 0x40⟩) := by
    decide +kernel
  have hshifted : Shifted threePages ⟨0x1000, 3, 0xfc0, 0x40, 0x40⟩ 0x1000 (-0x800) := by
    refine ⟨rfl, fun i page hpage => ?_, by decide⟩
    match i, hpage with
    | 0, rfl | 1, rfl | 2, rfl => rfl
  obtain ⟨chunks, hchunks, -, -, -, -, -, hunion, -⟩ :=
    chunks_tile 0x1fc0 0x1080 0x1000 _ threePages (-0x800) (by decide) hextent hshifted (by decide)
  have hthree : chunks = [(0x17c0, 0x40), (0x1800, 0x1000), (0x2800, 0x40)] :=
    List.map_injective_iff.2 (fun _ _ => Except.ok.inj) hchunks.symm
  rw [hthree] at hchunks hunion
  exact ⟨_, hextent, hchunks, hunion⟩

end PinnedRange

end DmaQueue

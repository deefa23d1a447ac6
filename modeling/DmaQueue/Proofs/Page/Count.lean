/-
  DmaQueue.Proofs.Page.Count

  How many pages a range touches.  The number is the length and the offset of
  the range in its first page, rounded up to pages.  It is right up to the very
  end of the address space, where that sum may itself leave the word.  The
  extent of a range has the same number, and where a range is cut at a page
  boundary the numbers of its two parts add up (`touched_counts`).
-/
import DmaQueue.Proofs.Page.Edges

namespace DmaQueue

/-! ## Cutting a range -/

/-- No page is touched from both sides of a page boundary. -/
theorem Extent.pieces_add {addr first second granule : Nat} (hgranule : 0 < granule)
    (hfirst : 0 < first) (hsecond : 0 < second) (hcut : granule ∣ addr + first) :
    pieces addr first granule + pieces (addr + first) second granule =
      pieces addr (first + second) granule := by
  obtain ⟨n, hn⟩ := hcut
  have hpos : 0 < n := by
    apply Nat.pos_of_ne_zero
    rintro rfl
    omega
  -- The last byte before the boundary lies on page `n - 1`, the first one after it on page `n`.
  have hbefore : (addr + first - 1) / granule = n - 1 := by
    obtain ⟨m, rfl⟩ := Nat.exists_eq_succ_of_ne_zero (Nat.pos_iff_ne_zero.1 hpos)
    rw [hn, Nat.mul_succ, Nat.add_sub_assoc hgranule, Nat.mul_add_div hgranule,
      Nat.div_eq_of_lt (Nat.sub_lt hgranule Nat.one_pos)]
    rfl
  have hafter : (addr + first) / granule = n := by
    rw [hn, Nat.mul_div_cancel_left _ hgranule]
  have hbegin : addr / granule ≤ (addr + first - 1) / granule := Nat.div_le_div_right (by omega)
  have hend : (addr + first) / granule ≤ (addr + first + second - 1) / granule :=
    Nat.div_le_div_right (by omega)
  unfold pieces
  rw [← Nat.add_assoc addr first second]
  omega

namespace Page

open Word

variable {granule addr length : UInt64}

/-- The parts of a range that is cut at a page boundary touch as many pages as the whole. -/
theorem touched_cut (h : isPowerOfTwo granule = true)
    (hfits : addr.toNat + length.toNat ≤ UInt64.size) {cut : UInt64}
    (hbegin : addr.toNat < cut.toNat) (hend : cut.toNat < addr.toNat + length.toNat)
    (hcut : granule.toNat ∣ cut.toNat) :
    ∃ before after, touched addr (cut - addr) granule = .ok before ∧
      touched cut (length - (cut - addr)) granule = .ok after ∧
      before.toNat + after.toNat = Extent.pieces addr.toNat length.toNat granule.toNat := by
  have hfirst : (cut - addr).toNat = cut.toNat - addr.toNat :=
    toNat_sub_of_le (Nat.le_of_lt hbegin)
  have hsecond : (length - (cut - addr)).toNat = length.toNat - (cut - addr).toNat :=
    toNat_sub_of_le (by omega)
  -- The two parts in natural numbers: up to the boundary, and from there on.
  have hplace : addr.toNat + (cut - addr).toNat = cut.toNat := by omega
  have hwhole : (cut - addr).toNat + (length - (cut - addr)).toNat = length.toNat := by omega
  have hfirstPos : 0 < (cut - addr).toNat := by omega
  have hsecondPos : 0 < (length - (cut - addr)).toNat := by omega
  have hfirstFits : addr.toNat + (cut - addr).toNat ≤ UInt64.size := by omega
  have hsecondFits : cut.toNat + (length - (cut - addr)).toNat ≤ UInt64.size := by omega
  obtain ⟨before, hbefore, hbeforeNat⟩ := touched_of_isPowerOfTwo h hfirstPos hfirstFits
  obtain ⟨after, hafter, hafterNat⟩ := touched_of_isPowerOfTwo h hsecondPos hsecondFits
  have hboundary : granule.toNat ∣ addr.toNat + (cut - addr).toNat := hplace ▸ hcut
  have hsum := Extent.pieces_add (toNat_pos_of_isPowerOfTwo h) hfirstPos hsecondPos hboundary
  rw [hplace, hwhole] at hsum
  refine ⟨before, after, hbefore, hafter, ?_⟩
  rw [hbeforeNat, hafterNat]
  exact hsum

/-! ## The number of pages -/

/-- On pages of any power of two, and up to the very end of the address space: the pages that a
range touches can be counted, and their number is the length and the offset in the first page,
rounded up to pages.  The extent of the range, which only a range that reaches the end does not
have, has the same number of pages.  The numbers on both sides of a page boundary inside the range
add up to it. -/
theorem touched_counts (h : isPowerOfTwo granule = true) (hlength : 1 ≤ length.toNat)
    (hfits : addr.toNat + length.toNat ≤ UInt64.size) :
    ∃ count, touched addr length granule = .ok count ∧
      count.toNat = (length.toNat + addr.toNat % granule.toNat) ⌈/⌉ granule.toNat ∧
      (∃ extent?, Extent.ofRange addr length granule = .ok extent? ∧
        (extent? = none ↔ addr.toNat + length.toNat = UInt64.size) ∧
        ∀ extent, extent? = some extent → extent.pages = count) ∧
      ∀ cut : UInt64, addr.toNat < cut.toNat → cut.toNat < addr.toNat + length.toNat →
        granule.toNat ∣ cut.toNat →
        ∃ before after, touched addr (cut - addr) granule = .ok before ∧
          touched cut (length - (cut - addr)) granule = .ok after ∧
          before.toNat + after.toNat = count.toNat := by
  have hgranule := toNat_pos_of_isPowerOfTwo h
  obtain ⟨count, hcount, hcountNat⟩ := touched_of_isPowerOfTwo h hlength hfits
  refine ⟨count, hcount, ?_, ?_, ?_⟩
  · rw [hcountNat, Extent.pages_eq_ceilDiv hlength hgranule]
  · rcases Extent.ofRange_answers h addr length with ⟨hout, hnone⟩ | ⟨extent, hextent, hspans⟩
    · exact ⟨none, hnone, iff_of_true rfl (by omega), fun extent hextent => nomatch hextent⟩
    · refine ⟨some extent, hextent, iff_of_false nofun (Nat.ne_of_lt hspans.fits), ?_⟩
      rintro _ ⟨⟩
      rw [← UInt64.toNat_inj, hspans.pages, hcountNat]
  · intro cut hbegin hend hcut
    obtain ⟨before, after, hbefore, hafter, hsum⟩ := touched_cut h hfits hbegin hend hcut
    refine ⟨before, after, hbefore, hafter, ?_⟩
    rw [hsum, hcountNat]
    rfl

/-- On pages of half the address space, a range of a byte more than that, which reaches to the end:
its length and its offset make a sum that leaves the word, and yet two pages are counted, one on
each side of the only page boundary.  A range that ends before has an extent, here of three
pages. -/
theorem touched_counts_at_end :
    (touched 0x7fffffffffffffff 0x8000000000000001 0x8000000000000000 = .ok 2 ∧
        UInt64.size ≤ 0x8000000000000001 + 0x7fffffffffffffff % 0x8000000000000000 ∧
        (0x8000000000000001 + 0x7fffffffffffffff % 0x8000000000000000) ⌈/⌉ 0x8000000000000000 = 2 ∧
        Extent.ofRange 0x7fffffffffffffff 0x8000000000000001 0x8000000000000000 = .ok none ∧
        ∃ before after, touched 0x7fffffffffffffff 1 0x8000000000000000 = .ok before ∧
          touched 0x8000000000000000 0x8000000000000000 0x8000000000000000 = .ok after ∧
          before.toNat + after.toNat = 2) ∧
      ∃ extent, Extent.ofRange 0x1fc0 0x1080 0x1000 = .ok (some extent) ∧ extent.pages = 3 := by
  constructor
  · have hpages : isPowerOfTwo 0x8000000000000000 = true := by decide
    have hlength : 1 ≤ (0x8000000000000001 : UInt64).toNat := by decide
    have hfits : (0x7fffffffffffffff : UInt64).toNat + (0x8000000000000001 : UInt64).toNat ≤
        UInt64.size := by decide
    obtain ⟨count, hcount, hnumber, ⟨extent?, hextent, hnone, -⟩, hcuts⟩ :=
      touched_counts hpages hlength hfits
    have hknown : touched 0x7fffffffffffffff 0x8000000000000001 0x8000000000000000 = .ok 2 := rfl
    obtain rfl := Except.ok.inj (hcount.symm.trans hknown)
    obtain rfl := hnone.2 rfl
    exact ⟨hcount, by decide, hnumber.symm, hextent,
      hcuts 0x8000000000000000 (by decide) (by decide) (by decide)⟩
  · have hpages : isPowerOfTwo 0x1000 = true := by decide
    have hlength : 1 ≤ (0x1080 : UInt64).toNat := by decide
    have hfits : (0x1fc0 : UInt64).toNat + (0x1080 : UInt64).toNat ≤ UInt64.size := by decide
    obtain ⟨count, hcount, -, ⟨extent?, hextent, hnone, hsame⟩, -⟩ :=
      touched_counts hpages hlength hfits
    have hknown : touched 0x1fc0 0x1080 0x1000 = .ok 3 := rfl
    obtain rfl := Except.ok.inj (hcount.symm.trans hknown)
    cases extent? with
    | none => exact absurd (hnone.1 rfl) (by decide)
    | some extent => exact ⟨extent, hextent, hsame extent rfl⟩

end Page

end DmaQueue

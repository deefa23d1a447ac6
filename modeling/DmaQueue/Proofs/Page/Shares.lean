/-
  DmaQueue.Proofs.Page.Shares

  How the bytes of a range are shared out among its pages, counted byte by byte.
  An extent counts the pages that the range meets, starts at the lowest of them
  and knows how many bytes lie on it.  Its last length reaches back to the
  beginning of the highest page, so it is the number of bytes on that page
  exactly if the range does not begin inside it (`shares_of_ofRange`).
-/
import DmaQueue.Proofs.Page.Extent
import Mathlib.Data.Set.Card
import Mathlib.Order.Interval.Finset.Nat

namespace DmaQueue

namespace Page

/-! ## Pages that a range meets -/

/-- Those of the `length` bytes from `addr` on that lie on the page of `granule` bytes at `base`. -/
def bytesOn (addr length granule base : Nat) : Finset Nat :=
  Finset.Ico addr (addr + length) ∩ Finset.Ico base (base + granule)

/-- The addresses of the pages that the `length` bytes from `addr` on meet. -/
def met (addr length granule : Nat) : Set Nat :=
  {base | granule ∣ base ∧ (bytesOn addr length granule base).Nonempty}

variable {addr length granule : Nat}

theorem card_bytesOn (addr length granule base : Nat) :
    (bytesOn addr length granule base).card =
      min (addr + length) (base + granule) - max addr base := by
  rw [bytesOn, Finset.Ico_inter_Ico, Nat.card_Ico]

theorem bytesOn_nonempty_iff (hlength : 0 < length) (hgranule : 0 < granule) (base : Nat) :
    (bytesOn addr length granule base).Nonempty ↔ addr < base + granule ∧ base < addr + length := by
  rw [← Finset.card_pos, card_bytesOn]
  omega

/-- The pages are those from that of the first byte to that of the last. -/
theorem mul_mem_met_iff (hlength : 0 < length) (hgranule : 0 < granule) (n : Nat) :
    granule * n ∈ met addr length granule ↔
      addr / granule ≤ n ∧ n ≤ (addr + length - 1) / granule := by
  have hbegins : addr < granule * n + granule ↔ addr / granule ≤ n := by
    rw [← Nat.mul_succ, Nat.mul_comm, ← Nat.div_lt_iff_lt_mul hgranule, Nat.lt_succ_iff]
  have hends : granule * n < addr + length ↔ n ≤ (addr + length - 1) / granule := by
    rw [Nat.le_div_iff_mul_le hgranule, Nat.mul_comm]
    omega
  rw [← hbegins, ← hends, ← bytesOn_nonempty_iff hlength hgranule]
  exact and_iff_right (Nat.dvd_mul_right ..)

theorem div_le_div_last (hlength : 0 < length) (granule : Nat) :
    addr / granule ≤ (addr + length - 1) / granule :=
  Nat.div_le_div_right (by omega)

theorem met_eq_image (hlength : 0 < length) (hgranule : 0 < granule) :
    met addr length granule =
      (granule * ·) '' Set.Icc (addr / granule) ((addr + length - 1) / granule) := by
  ext base
  constructor
  · intro hbase
    obtain ⟨n, rfl⟩ := hbase.1
    exact ⟨n, (mul_mem_met_iff hlength hgranule n).1 hbase, rfl⟩
  · rintro ⟨n, hn, rfl⟩
    exact (mul_mem_met_iff hlength hgranule n).2 hn

theorem ncard_met (hlength : 0 < length) (hgranule : 0 < granule) :
    (met addr length granule).ncard = (addr + length - 1) / granule - addr / granule + 1 := by
  have hle : addr / granule ≤ (addr + length - 1) / granule := div_le_div_last hlength granule
  have hinjective : Function.Injective (granule * ·) :=
    fun _ _ h => Nat.eq_of_mul_eq_mul_left hgranule h
  rw [met_eq_image hlength hgranule, Set.ncard_image_of_injective _ hinjective,
    Set.ncard_eq_toFinset_card', Set.toFinset_Icc, Nat.card_Icc]
  omega

theorem isLeast_met (hlength : 0 < length) (hgranule : 0 < granule) :
    IsLeast (met addr length granule) (granule * (addr / granule)) := by
  constructor
  · exact (mul_mem_met_iff hlength hgranule _).2 ⟨Nat.le_refl _, div_le_div_last hlength granule⟩
  · intro base hbase
    obtain ⟨n, rfl⟩ := hbase.1
    exact Nat.mul_le_mul_left _ ((mul_mem_met_iff hlength hgranule n).1 hbase).1

theorem isGreatest_met (hlength : 0 < length) (hgranule : 0 < granule) :
    IsGreatest (met addr length granule) (granule * ((addr + length - 1) / granule)) := by
  constructor
  · exact (mul_mem_met_iff hlength hgranule _).2 ⟨div_le_div_last hlength granule, Nat.le_refl _⟩
  · intro base hbase
    obtain ⟨n, rfl⟩ := hbase.1
    exact Nat.mul_le_mul_left _ ((mul_mem_met_iff hlength hgranule n).1 hbase).2

/-- The range begins inside its highest page exactly if this is its only one and the range does not
begin at the beginning of it. -/
theorem le_lastPage_iff (hlength : 0 < length) (hgranule : 0 < granule) :
    addr ≤ granule * ((addr + length - 1) / granule) ↔
      addr / granule < (addr + length - 1) / granule ∨ addr % granule = 0 := by
  have hfirst := Nat.div_add_mod addr granule
  have hmod := Nat.mod_lt addr hgranule
  have hle : addr / granule ≤ (addr + length - 1) / granule := div_le_div_last hlength granule
  -- The first page lies below the highest one, or it is the highest one.
  rcases Nat.lt_or_eq_of_le hle with hlt | heq
  · have hnext : granule * (addr / granule) + granule ≤
        granule * ((addr + length - 1) / granule) := by
      rw [← Nat.mul_succ]
      exact Nat.mul_le_mul_left _ hlt
    simp only [hlt, true_or, iff_true]
    omega
  · rw [← heq]
    omega

end Page

/-! ## What an extent counts -/

namespace Extent

open Page (bytesOn met)
open Word

/-- The extent counts the pages that the `length` bytes from `addr` on meet, and the bytes on the
lowest and on the highest of them.  The last length goes from the beginning of the highest page to
the end of the range; so it counts what lies before the range too, if that begins inside this
page. -/
structure Shares (extent : Extent) (addr length granule : Nat) : Prop where
  pages : extent.pages.toNat = (met addr length granule).ncard
  firstPage : IsLeast (met addr length granule) extent.firstPage.toNat
  offset : extent.offset.toNat = addr - extent.firstPage.toNat
  firstLength :
    extent.firstLength.toNat = (bytesOn addr length granule extent.firstPage.toNat).card
  lastLength : ∃ lastPage, IsGreatest (met addr length granule) lastPage ∧
    extent.lastLength.toNat = addr + length - lastPage ∧
    (extent.lastLength.toNat = (bytesOn addr length granule lastPage).card ↔
      1 < extent.pages.toNat ∨ extent.offset.toNat = 0)

theorem Spans.shares {extent : Extent} {addr length granule : Nat}
    (h : extent.Spans addr length granule) (hgranule : 0 < granule) :
    extent.Shares addr length granule := by
  have hfirst := Nat.div_add_mod addr granule
  have hlast := Nat.div_add_mod (addr + length - 1) granule
  have hmod := Nat.mod_lt (addr + length - 1) hgranule
  have hlength := h.pos
  constructor
  case pages => rw [h.pages, Page.ncard_met hlength hgranule]
  case firstPage =>
    rw [h.firstPage]
    exact Page.isLeast_met hlength hgranule
  case offset =>
    rw [h.offset, h.firstPage]
    omega
  case firstLength =>
    rw [h.firstLength, h.firstPage, Page.card_bytesOn]
    omega
  case lastLength =>
    refine ⟨_, Page.isGreatest_met hlength hgranule, ?_, ?_⟩
    · rw [h.lastLength]
      omega
    · have hbegins : addr ≤ granule * ((addr + length - 1) / granule) ↔
          addr / granule < (addr + length - 1) / granule ∨ addr % granule = 0 :=
        Page.le_lastPage_iff hlength hgranule
      have hpages : 1 < extent.pages.toNat ↔ addr / granule < (addr + length - 1) / granule := by
        rw [h.pages]
        omega
      rw [hpages, h.offset, ← hbegins, h.lastLength, Page.card_bytesOn]
      omega

variable {granule : UInt64}

/-- On pages of any power of two, a range has an extent exactly if it is not empty and ends inside
the address space, and the extent says how the range lies on its pages.  Only that the last length
is the number of bytes on the last page holds of a range that begins with a page or meets several,
and of no other. -/
theorem shares_of_ofRange (h : isPowerOfTwo granule = true) (addr length : UInt64) :
    (ofRange addr length granule = .ok none ↔
        length.toNat = 0 ∨ UInt64.size ≤ addr.toNat + length.toNat) ∧
      (¬(length.toNat = 0 ∨ UInt64.size ≤ addr.toNat + length.toNat) →
        ∃ extent, ofRange addr length granule = .ok (some extent) ∧
          extent.Shares addr.toNat length.toNat granule.toNat) := by
  have hgranule := toNat_pos_of_isPowerOfTwo h
  rcases ofRange_answers h addr length with ⟨hout, hnone⟩ | ⟨extent, hextent, hspans⟩
  · exact ⟨iff_of_true hnone hout, fun hin => absurd hout hin⟩
  · have hin : ¬(length.toNat = 0 ∨ UInt64.size ≤ addr.toNat + length.toNat) := by
      have hpos := hspans.pos
      have hfits := hspans.fits
      omega
    refine ⟨iff_of_false ?_ hin, fun _ => ⟨extent, hextent, hspans.shares hgranule⟩⟩
    rw [hextent]
    simp

/-- A range on three pages: the last length is what lies on the third of them. -/
theorem shares_of_threePages :
    ∃ extent, ofRange 0x1fc0 0x1080 0x1000 = .ok (some extent) ∧ extent.pages = 3 ∧
      extent.pages.toNat = (met 0x1fc0 0x1080 0x1000).ncard ∧
      ∃ lastPage, IsGreatest (met 0x1fc0 0x1080 0x1000) lastPage ∧
        extent.lastLength.toNat = (bytesOn 0x1fc0 0x1080 0x1000 lastPage).card := by
  have hpages : isPowerOfTwo 0x1000 = true := by decide
  obtain ⟨-, hanswers⟩ := shares_of_ofRange hpages 0x1fc0 0x1080
  obtain ⟨extent, hextent, hshares⟩ := hanswers (by decide)
  obtain ⟨lastPage, hlastPage, -, hcounts⟩ := hshares.lastLength
  have hknown : ofRange 0x1fc0 0x1080 0x1000 = .ok (some ⟨0x1000, 3, 0xfc0, 0x40, 0x40⟩) := rfl
  obtain rfl := Option.some.inj (Except.ok.inj (hextent.symm.trans hknown))
  exact ⟨_, hextent, rfl, hshares.pages, lastPage, hlastPage, hcounts.2 (.inl (by decide))⟩

/-- A range of 64 bytes that begins 64 bytes after its only page: that page has all of them, but the
last length is 128. -/
theorem lastLength_not_shared :
    ∃ extent, ofRange 0x1040 0x40 0x1000 = .ok (some extent) ∧
      IsGreatest (met 0x1040 0x40 0x1000) 0x1000 ∧ extent.lastLength = 0x80 ∧
      (bytesOn 0x1040 0x40 0x1000 0x1000).card = 0x40 :=
  ⟨⟨0x1000, 1, 0x40, 0x40, 0x80⟩, rfl, Page.isGreatest_met (by decide) (by decide), rfl, by decide⟩

end Extent

end DmaQueue

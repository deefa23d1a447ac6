/-
  DmaQueue.Proofs.Page.Extent

  What the fields of an extent say, in natural numbers, for a granule that is a
  power of two (`spans_of_ofRange`).
-/
import DmaQueue.Page.Extent
import DmaQueue.Proofs.Page.Granule
import Mathlib.Algebra.Order.Floor.Div
import Mathlib.Order.Bounds.Defs

namespace DmaQueue

open Word

/-- The extent is the geometry of the `length` bytes from `addr` on, on pages of `granule` bytes. -/
structure Extent.Spans (extent : Extent) (addr length granule : Nat) : Prop where
  pos : 0 < length
  fits : addr + length < UInt64.size
  firstPage : extent.firstPage.toNat = granule * (addr / granule)
  pages : extent.pages.toNat = (addr + length - 1) / granule - addr / granule + 1
  offset : extent.offset.toNat = addr % granule
  firstLength : extent.firstLength.toNat = min (granule - addr % granule) length
  lastLength : extent.lastLength.toNat = (addr + length - 1) % granule + 1

namespace Extent

variable {addr length granule : UInt64} {extent : Extent}

theorem Spans.pages_pos {addr length granule : Nat} (h : extent.Spans addr length granule) :
    1 ≤ extent.pages.toNat := by
  rw [h.pages]
  omega

theorem toNat_min (a b : UInt64) : (min a b).toNat = min a.toNat b.toNat := by
  show (if a ≤ b then a else b).toNat = _
  split
  · rename_i h
    rw [UInt64.le_iff_toNat_le] at h
    omega
  · rename_i h
    rw [UInt64.le_iff_toNat_le] at h
    omega

/-- The geometry of a range that is not empty and ends inside the address space. -/
theorem ofRange_of_add? (h : isPowerOfTwo granule = true) (hzero : length ≠ 0) {stop : UInt64}
    (hstop : add? addr length = some stop) :
    ofRange addr length granule = .ok (some
      { firstPage := addr - addr % granule
        pages := (stop - 1 - (stop - 1) % granule - (addr - addr % granule)) / granule + 1
        offset := addr % granule
        firstLength := min (granule - addr % granule) length
        lastLength := stop - (stop - 1 - (stop - 1) % granule) }) := by
  have hstopNat := add?_eq_some_iff.1 hstop
  have hlength := toNat_pos_of_ne_zero hzero
  have hone : (1 : UInt64).toNat ≤ stop.toNat := by
    show 1 ≤ _
    omega
  have hle : addr.toNat ≤ (stop - 1).toNat := by
    rw [toNat_sub_of_le hone, hstopNat]
    show _ ≤ _ - 1
    omega
  simp only [ofRange, hzero, ↓reduceIte, hstop, Page.alignDown_of_isPowerOfTwo h,
    Page.offset_of_isPowerOfTwo h, checkedSub_of_le (Page.aligned_le granule hle), bind,
    Except.bind, pure, Except.pure]

theorem exists_spans (h : isPowerOfTwo granule = true) (hzero : length ≠ 0) {stop : UInt64}
    (hstop : add? addr length = some stop) :
    ∃ extent, ofRange addr length granule = .ok (some extent) ∧
      extent.Spans addr.toNat length.toNat granule.toNat := by
  have hpos := toNat_pos_of_isPowerOfTwo h
  have hlength := toNat_pos_of_ne_zero hzero
  have hstopNat := add?_eq_some_iff.1 hstop
  have hfits := stop.toNat_lt_size
  have hone : (1 : UInt64).toNat ≤ stop.toNat := by
    show 1 ≤ _
    omega
  -- The last byte of the range.
  have hlast : (stop - 1).toNat = addr.toNat + length.toNat - 1 := by
    rw [toNat_sub_of_le hone, hstopNat]
    rfl
  have hle : addr.toNat ≤ (stop - 1).toNat := by omega
  have hoffset : (addr % granule).toNat ≤ granule.toNat := by
    rw [UInt64.toNat_mod]
    exact Nat.le_of_lt (Nat.mod_lt _ hpos)
  have haligned := Page.toNat_sub_mod (stop - 1) granule
  have hsplit := Nat.div_add_mod (stop - 1).toNat granule.toNat
  have hend : (stop - 1 - (stop - 1) % granule).toNat ≤ stop.toNat := by omega
  refine ⟨_, ofRange_of_add? h hzero hstop, ?_⟩
  constructor
  case pos => exact hlength
  case fits => omega
  case firstPage => exact Page.toNat_sub_mod addr granule
  case pages =>
    rw [← hlast]
    exact Page.toNat_pagesBetween hpos hle (by omega)
  case offset => exact UInt64.toNat_mod _ _
  case firstLength => rw [toNat_min, toNat_sub_of_le hoffset, UInt64.toNat_mod]
  case lastLength =>
    rw [toNat_sub_of_le hend, ← hlast]
    omega

/-- A range has a geometry exactly if it is not empty and ends inside the address space. -/
theorem ofRange_answers (h : isPowerOfTwo granule = true) (addr length : UInt64) :
    ((length.toNat = 0 ∨ UInt64.size ≤ addr.toNat + length.toNat) ∧
        ofRange addr length granule = .ok none) ∨
      ∃ extent, ofRange addr length granule = .ok (some extent) ∧
        extent.Spans addr.toNat length.toNat granule.toNat := by
  by_cases hzero : length = 0
  · exact .inl ⟨.inl (congrArg UInt64.toNat hzero), by simp [ofRange, hzero, pure, Except.pure]⟩
  cases hstop : add? addr length with
  | none =>
    have hout := isNone_add?_iff.1 (Option.isNone_iff_eq_none.2 hstop)
    exact .inl ⟨.inr hout, by simp [ofRange, hzero, hstop, pure, Except.pure]⟩
  | some stop => exact .inr (exists_spans h hzero hstop)

theorem spans_of_ofRange (h : isPowerOfTwo granule = true)
    (hextent : ofRange addr length granule = .ok (some extent)) :
    extent.Spans addr.toNat length.toNat granule.toNat := by
  rcases ofRange_answers h addr length with ⟨-, hnone⟩ | ⟨found, hfound, hspans⟩
  · rw [hnone] at hextent
    exact nomatch hextent
  · rw [hfound, Except.ok.injEq, Option.some.injEq] at hextent
    exact hextent ▸ hspans

/-! ## The same in terms of multiples -/

/-- The extent lies on pages of `granule` bytes: its first page is the greatest multiple that is not
above the address, and its pages hold what comes after that. -/
structure Lies (extent : Extent) (addr length granule : Nat) : Prop where
  firstPage : IsGreatest {base | granule ∣ base ∧ base ≤ addr} extent.firstPage.toNat
  offset : extent.offset.toNat = addr - extent.firstPage.toNat
  pages : extent.pages.toNat = (extent.offset.toNat + length) ⌈/⌉ granule
  pages_pos : 1 ≤ extent.pages.toNat
  firstLength : extent.firstLength.toNat = min (granule - extent.offset.toNat) length

theorem isGreatest_multiple {granule : Nat} (hpos : 0 < granule) (addr : Nat) :
    IsGreatest {base | granule ∣ base ∧ base ≤ addr} (granule * (addr / granule)) := by
  refine ⟨⟨Nat.dvd_mul_right .., Nat.mul_div_le ..⟩, ?_⟩
  rintro _ ⟨⟨n, rfl⟩, hle⟩
  exact Nat.mul_le_mul_left _ ((Nat.le_div_iff_mul_le hpos).2 (Nat.mul_comm .. ▸ hle))

/-- From the page of the first byte to that of the last: the length and what the first page holds
before the range, rounded up to pages. -/
theorem pages_eq_ceilDiv {addr length granule : Nat} (hlength : 0 < length) (hpos : 0 < granule) :
    (addr + length - 1) / granule - addr / granule + 1 = (length + addr % granule) ⌈/⌉ granule := by
  have hsplit := Nat.div_add_mod addr granule
  -- The range without the pages before its first one.
  have hshift : addr + length - 1 = addr % granule + length - 1 + granule * (addr / granule) := by
    omega
  rw [Nat.ceilDiv_eq_add_pred_div, hshift, Nat.add_mul_div_left _ _ hpos, Nat.add_sub_cancel,
    ← Nat.add_div_right _ hpos]
  congr 1
  omega

theorem Spans.lies {addr length granule : Nat} (h : extent.Spans addr length granule)
    (hpos : 0 < granule) : extent.Lies addr length granule := by
  have hsplit := Nat.div_add_mod addr granule
  constructor
  case firstPage =>
    rw [h.firstPage]
    exact isGreatest_multiple hpos addr
  case offset =>
    rw [h.offset, h.firstPage]
    omega
  case pages => rw [h.pages, h.offset, pages_eq_ceilDiv h.pos hpos, Nat.add_comm]
  case pages_pos => exact h.pages_pos
  case firstLength => rw [h.firstLength, h.offset]

end Extent

end DmaQueue

/-
  DmaQueue.Proofs.Page.Rounding

  Rounding up to a page boundary, and counting the pages that hold some bytes.
  Where the next boundary fits the word, it is found; the only exception is the
  last boundary of all, from which a whole page still leads out of the address
  space (`rounds_up_but_at_end`).
-/
import DmaQueue.Proofs.Page.Granule
import Mathlib.Algebra.Order.Floor.Div
import Mathlib.Order.Bounds.Defs

namespace DmaQueue

namespace Page

open Word

/-! ## Page boundaries -/

/-- The page boundaries that are not below an address. -/
def boundariesFrom (addr granule : Nat) : Set Nat :=
  {base | granule ∣ base ∧ addr ≤ base}

theorem isLeast_boundariesFrom {granule : Nat} (hpos : 0 < granule) (addr : Nat) :
    IsLeast (boundariesFrom addr granule) (granule * (addr ⌈/⌉ granule)) := by
  constructor
  · exact ⟨Nat.dvd_mul_right .., (ceilDiv_le_iff_le_mul hpos).1 (Nat.le_refl _)⟩
  · rintro _ ⟨⟨n, rfl⟩, hle⟩
    exact Nat.mul_le_mul_left _ ((ceilDiv_le_iff_le_mul hpos).2 hle)

variable {granule addr : UInt64} {above : Nat}

/-- The next boundary fits the word as long as a page does. -/
theorem boundary_lt_size_iff (h : isPowerOfTwo granule = true)
    (habove : IsLeast (boundariesFrom addr.toNat granule.toNat) above) :
    above < UInt64.size ↔ addr.toNat + granule.toNat ≤ UInt64.size := by
  have hpos := toNat_pos_of_isPowerOfTwo h
  have hlt := granule.toNat_lt_size
  obtain ⟨⟨hdvd, hle⟩, hleast⟩ := habove
  constructor
  · intro hbelow
    -- The boundary and the end of the address space are both multiples, so a page lies between.
    have hgap : granule.toNat ∣ UInt64.size - above := Nat.dvd_sub (dvd_size_of_isPowerOfTwo h) hdvd
    have hpage := Nat.le_of_dvd (Nat.sub_pos_of_lt hbelow) hgap
    omega
  · intro hroom
    have hlast : UInt64.size - granule.toNat ∈ boundariesFrom addr.toNat granule.toNat :=
      ⟨Nat.dvd_sub (dvd_size_of_isPowerOfTwo h) (Nat.dvd_refl _), by omega⟩
    have hle := hleast hlast
    omega

/-! ## Rounding up -/

theorem alignUp_of_lt (h : isPowerOfTwo granule = true)
    (hroom : addr.toNat + granule.toNat < UInt64.size) :
    ∃ rounded, alignUp addr granule = .ok rounded ∧
      rounded.toNat = granule.toNat * (addr.toNat ⌈/⌉ granule.toNat) := by
  have hpos := toNat_pos_of_isPowerOfTwo h
  have hsum : (addr + granule).toNat = addr.toNat + granule.toNat := toNat_add_of_lt hroom
  have hone : (1 : UInt64).toNat ≤ (addr + granule).toNat := by
    rw [hsum]
    exact Nat.le_trans hpos (Nat.le_add_left ..)
  refine ⟨addr + granule - 1 - (addr + granule - 1) % granule, ?_, ?_⟩
  · unfold alignUp
    simp only [checkedAdd_of_lt hroom, checkedSub_of_le hone, alignDown_of_isPowerOfTwo h, bind,
      Except.bind]
  · rw [toNat_sub_mod, toNat_sub_of_le hone, hsum, Nat.ceilDiv_eq_add_pred_div]
    rfl

/-- The sum of address and granule has to fit the word, although the boundary lies below it. -/
theorem alignUp_of_le (hout : UInt64.size ≤ addr.toNat + granule.toNat) :
    alignUp addr granule = .error .overflow := by
  have hsum : checkedAdd addr granule = .error .overflow := if_neg (Nat.not_lt.2 hout)
  unfold alignUp
  rw [hsum]
  rfl

theorem exists_alignUp_iff (h : isPowerOfTwo granule = true)
    (habove : IsLeast (boundariesFrom addr.toNat granule.toNat) above) :
    (∃ rounded, alignUp addr granule = .ok rounded ∧ rounded.toNat = above) ↔
      addr.toNat + granule.toNat < UInt64.size := by
  constructor
  · rintro ⟨rounded, hrounded, -⟩
    by_contra hout
    rw [alignUp_of_le (Nat.not_lt.1 hout)] at hrounded
    exact nomatch hrounded
  · intro hroom
    obtain ⟨rounded, hrounded, hnumber⟩ := alignUp_of_lt h hroom
    have hleast := isLeast_boundariesFrom (toNat_pos_of_isPowerOfTwo h) addr.toNat
    exact ⟨rounded, hrounded, hnumber.trans (hleast.unique habove)⟩

theorem alignUp_eq_error_iff (h : isPowerOfTwo granule = true) {fault : Fault} :
    alignUp addr granule = .error fault ↔
      fault = .overflow ∧ UInt64.size ≤ addr.toNat + granule.toNat := by
  rcases Nat.lt_or_ge (addr.toNat + granule.toNat) UInt64.size with hroom | hout
  · obtain ⟨rounded, hrounded, -⟩ := alignUp_of_lt h hroom
    rw [hrounded]
    exact iff_of_false nofun fun hfault => Nat.not_le.2 hroom hfault.2
  · rw [alignUp_of_le hout, Except.error.injEq, eq_comm]
    exact (and_iff_left hout).symm

/-! ## Pages and bytes -/

theorem ofBytes_of_lt {bytes : UInt64} (hroom : bytes.toNat + 4096 < UInt64.size) :
    ∃ pages, ofBytes bytes = .ok pages ∧ pages.toNat = bytes.toNat ⌈/⌉ (4096 : Nat) := by
  have hpower : isPowerOfTwo standardSize = true := by decide
  obtain ⟨rounded, hrounded, hnumber⟩ := alignUp_of_lt hpower hroom
  have hsize : standardSize.toNat = 4096 := rfl
  refine ⟨rounded / standardSize, ?_, ?_⟩
  · unfold ofBytes
    rw [hrounded]
    rfl
  · rw [UInt64.toNat_div, hnumber, hsize, Nat.mul_div_cancel_left _ (by decide)]

theorem ofBytes_of_le {bytes : UInt64} (hout : UInt64.size ≤ bytes.toNat + 4096) :
    ofBytes bytes = .error .overflow := by
  have hrounded : alignUp bytes standardSize = .error .overflow := alignUp_of_le hout
  unfold ofBytes
  rw [hrounded]
  rfl

theorem exists_ofBytes_iff (bytes : UInt64) :
    (∃ pages, ofBytes bytes = .ok pages ∧ pages.toNat = bytes.toNat ⌈/⌉ (4096 : Nat)) ↔
      bytes.toNat + 4096 < UInt64.size := by
  constructor
  · rintro ⟨pages, hpages, -⟩
    by_contra hout
    rw [ofBytes_of_le (Nat.not_lt.1 hout)] at hpages
    exact nomatch hpages
  · exact ofBytes_of_lt

/-- Pages that fit the word leave room for one page after them. -/
theorem add_le_size_of_toBytes {pages bytes : UInt64} (h : toBytes pages = .ok bytes) :
    bytes.toNat = pages.toNat * 4096 ∧ bytes.toNat + 4096 ≤ UInt64.size := by
  have hproduct : bytes.toNat = pages.toNat * 4096 := checkedMul_eq_ok_iff.1 h
  have hlt := bytes.toNat_lt_size
  have hsize : UInt64.size = 4503599627370496 * 4096 := rfl
  omega

theorem ofBytes_toBytes_iff {pages bytes : UInt64} (h : toBytes pages = .ok bytes) :
    ofBytes bytes = .ok pages ↔ bytes.toNat + 4096 < UInt64.size := by
  obtain ⟨hproduct, -⟩ := add_le_size_of_toBytes h
  rw [← exists_ofBytes_iff]
  have hwhole : bytes.toNat ⌈/⌉ (4096 : Nat) = pages.toNat := by
    rw [hproduct, Nat.mul_comm]
    exact smul_ceilDiv (by decide) _
  constructor
  · exact fun hpages => ⟨pages, hpages, hwhole.symm⟩
  · rintro ⟨found, hfound, hnumber⟩
    rw [hfound, UInt64.toNat_inj.1 (hnumber.trans hwhole)]

/-! ## Where rounding is exact -/

/-- On pages of any power of two: there is a next page boundary, and where it fits the word rounding
up finds it, unless the address is the last boundary itself; rounding up faults only there and where
the boundary does not fit.  So the pages that hold some bytes are counted, wherever those bytes can
be rounded up, as the rounded-up quotient, and the pages of whole pages are those pages, both with
the same exception: that the bytes end where the last page begins. -/
theorem rounds_up_but_at_end (h : isPowerOfTwo granule = true) :
    (∀ addr : UInt64, ∃ above, IsLeast (boundariesFrom addr.toNat granule.toNat) above ∧
        (above < UInt64.size →
          ((∃ rounded, alignUp addr granule = .ok rounded ∧ rounded.toNat = above) ↔
            addr.toNat + granule.toNat ≠ UInt64.size)) ∧
        ∀ fault, alignUp addr granule = .error fault ↔
          fault = .overflow ∧
            (UInt64.size ≤ above ∨ addr.toNat + granule.toNat = UInt64.size)) ∧
      (∀ (bytes : UInt64) (above : Nat), IsLeast (boundariesFrom bytes.toNat 4096) above →
        above < UInt64.size →
        ((∃ pages, ofBytes bytes = .ok pages ∧ pages.toNat = bytes.toNat ⌈/⌉ (4096 : Nat)) ↔
          bytes.toNat + 4096 ≠ UInt64.size)) ∧
      ∀ pages bytes : UInt64, toBytes pages = .ok bytes →
        (ofBytes bytes = .ok pages ↔ bytes.toNat + 4096 ≠ UInt64.size) := by
  refine ⟨?_, ?_, ?_⟩
  · intro addr
    have habove := isLeast_boundariesFrom (toNat_pos_of_isPowerOfTwo h) addr.toNat
    refine ⟨_, habove, fun hfits => ?_, fun fault => ?_⟩
    · have hroom := (boundary_lt_size_iff h habove).1 hfits
      rw [exists_alignUp_iff h habove]
      omega
    · -- The sum leaves the word with the boundary, and once more just before that.
      have hout : UInt64.size ≤ addr.toNat + granule.toNat ↔
          ¬addr.toNat + granule.toNat ≤ UInt64.size ∨
            addr.toNat + granule.toNat = UInt64.size := by omega
      rw [alignUp_eq_error_iff h, hout, ← boundary_lt_size_iff h habove, Nat.not_lt]
  · intro bytes above habove hfits
    have hpower : isPowerOfTwo standardSize = true := by decide
    have hroom : bytes.toNat + 4096 ≤ UInt64.size := (boundary_lt_size_iff hpower habove).1 hfits
    rw [exists_ofBytes_iff]
    omega
  · intro pages bytes hbytes
    obtain ⟨-, hroom⟩ := add_le_size_of_toBytes hbytes
    rw [ofBytes_toBytes_iff hbytes]
    omega

/-- From the last page but one, rounding up still finds the last boundary. -/
theorem rounds_up_to_last_boundary :
    (∃ above, IsLeast (boundariesFrom 0xffffffffffffe001 0x1000) above ∧ above < UInt64.size ∧
        ∃ rounded, alignUp 0xffffffffffffe001 0x1000 = .ok rounded ∧ rounded.toNat = above) ∧
      (∃ pages, ofBytes 0xffffffffffffe001 = .ok pages ∧
        pages.toNat = 0xffffffffffffe001 ⌈/⌉ (4096 : Nat)) ∧
      toBytes 0xffffffffffffe = .ok 0xffffffffffffe000 ∧
      ofBytes 0xffffffffffffe000 = .ok 0xffffffffffffe := by
  have hpages : isPowerOfTwo 0x1000 = true := by decide
  obtain ⟨hround, hcount, hwhole⟩ := rounds_up_but_at_end hpages
  obtain ⟨above, habove, hfound, -⟩ := hround 0xffffffffffffe001
  have hlast : (0xfffffffffffff000 : Nat) ∈ boundariesFrom 0xffffffffffffe001 0x1000 :=
    ⟨by decide, by decide⟩
  have hfits : above < UInt64.size := Nat.lt_of_le_of_lt (habove.2 hlast) (by decide)
  exact ⟨⟨above, habove, hfits, (hfound hfits).2 (by decide)⟩,
    (hcount 0xffffffffffffe001 above habove hfits).2 (by decide),
    rfl, (hwhole 0xffffffffffffe 0xffffffffffffe000 rfl).2 (by decide)⟩

/-- The last page boundary is its own next boundary and fits the word, but rounding it up faults; so
does counting the pages of the bytes below it, though they are whole pages. -/
theorem last_boundary_not_rounded :
    IsLeast (boundariesFrom 0xfffffffffffff000 0x1000) 0xfffffffffffff000 ∧
      0xfffffffffffff000 < UInt64.size ∧
      alignUp 0xfffffffffffff000 0x1000 = .error .overflow ∧
      toBytes 0xfffffffffffff = .ok 0xfffffffffffff000 ∧
      ofBytes 0xfffffffffffff000 = .error .overflow :=
  ⟨⟨⟨by decide, Nat.le_refl _⟩, fun _ h => h.2⟩, by decide, rfl, rfl, rfl⟩

end Page

end DmaQueue

/-
  DmaQueue.Proofs.Page.Granule

  For a granule that is a power of two, the masks of `Page.Granule` are
  remainders: `offset` is `addr % granule`, `alignDown` takes it away, and
  neither can fault.
-/
import DmaQueue.Page.Granule

namespace DmaQueue

namespace Word

variable {a granule : UInt64}

theorem toNat_of_isPowerOfTwo (h : isPowerOfTwo granule = true) :
    granule.toNat = 1 <<< granule.toNat.log2 :=
  beq_iff_eq.1 h

theorem toNat_pos_of_isPowerOfTwo (h : isPowerOfTwo granule = true) : 0 < granule.toNat := by
  rw [toNat_of_isPowerOfTwo h, Nat.one_shiftLeft]
  exact Nat.two_pow_pos _

/-- The bits below a power of two are the remainder. -/
theorem and_sub_one_eq_mod (h : isPowerOfTwo granule = true) (a : UInt64) :
    a &&& (granule - 1) = a % granule := by
  have hone : (1 : UInt64) ≤ granule := UInt64.le_iff_toNat_le.2 (toNat_pos_of_isPowerOfTwo h)
  rw [← UInt64.toNat_inj, UInt64.toNat_and, UInt64.toNat_mod, UInt64.toNat_sub_of_le _ _ hone]
  show a.toNat &&& (granule.toNat - 1) = a.toNat % granule.toNat
  rw [toNat_of_isPowerOfTwo h, Nat.one_shiftLeft, Nat.and_two_pow_sub_one_eq_mod]

/-- Of two powers of two the smaller divides the larger. -/
theorem dvd_of_isPowerOfTwo {b : UInt64} (ha : isPowerOfTwo a = true) (hb : isPowerOfTwo b = true)
    (hle : a.toNat ≤ b.toNat) : a.toNat ∣ b.toNat := by
  rw [toNat_of_isPowerOfTwo ha, toNat_of_isPowerOfTwo hb, Nat.one_shiftLeft, Nat.one_shiftLeft]
    at hle ⊢
  exact Nat.pow_dvd_pow 2 ((Nat.pow_le_pow_iff_right (by decide)).1 hle)

/-- A power of two divides the size of the address space. -/
theorem dvd_size_of_isPowerOfTwo (h : isPowerOfTwo granule = true) :
    granule.toNat ∣ UInt64.size := by
  have hlt := granule.toNat_lt_size
  have hsize : UInt64.size = 2 ^ 64 := rfl
  rw [toNat_of_isPowerOfTwo h, Nat.one_shiftLeft, hsize] at hlt ⊢
  exact Nat.pow_dvd_pow 2 (Nat.le_of_lt ((Nat.pow_lt_pow_iff_right (by decide)).1 hlt))

theorem toNat_pos_of_ne_zero (h : a ≠ 0) : 0 < a.toNat :=
  Nat.pos_of_ne_zero fun hzero => h (UInt64.toNat_inj.1 hzero)

theorem isSome_add?_iff {b : UInt64} :
    (add? a b).isSome = true ↔ a.toNat + b.toNat < UInt64.size := by
  unfold add?
  split <;> simp [*]

theorem isNone_add?_iff {b : UInt64} :
    (add? a b).isNone = true ↔ UInt64.size ≤ a.toNat + b.toNat := by
  rw [← Nat.not_lt, ← isSome_add?_iff]
  simp

theorem checkedAdd_of_lt {b : UInt64} (h : a.toNat + b.toNat < UInt64.size) :
    checkedAdd a b = .ok (a + b) :=
  if_pos h

theorem overflow_of_checkedAdd {b : UInt64} {fault : Fault} (h : checkedAdd a b = .error fault) :
    fault = .overflow := by
  unfold checkedAdd at h
  split at h
  · simp at h
  · exact (Except.error.inj h).symm

theorem toNat_add_of_lt {b : UInt64} (h : a.toNat + b.toNat < UInt64.size) :
    (a + b).toNat = a.toNat + b.toNat := by
  rw [UInt64.toNat_add]
  exact Nat.mod_eq_of_lt h

theorem checkedSub_of_le {b : UInt64} (h : b.toNat ≤ a.toNat) : checkedSub a b = .ok (a - b) :=
  if_pos (UInt64.le_iff_toNat_le.2 h)

theorem toNat_sub_of_le {b : UInt64} (h : b.toNat ≤ a.toNat) :
    (a - b).toNat = a.toNat - b.toNat :=
  UInt64.toNat_sub_of_le _ _ (UInt64.le_iff_toNat_le.2 h)

end Word

namespace Page

open Word

variable {granule : UInt64}

/-! ## Offsets and aligned addresses -/

theorem offset_of_isPowerOfTwo (h : isPowerOfTwo granule = true) (addr : UInt64) :
    offset addr granule = .ok (addr % granule) := by
  have hone : (1 : UInt64).toNat ≤ granule.toNat := toNat_pos_of_isPowerOfTwo h
  unfold offset
  rw [checkedSub_of_le hone, ← and_sub_one_eq_mod h]
  rfl

theorem alignDown_of_isPowerOfTwo (h : isPowerOfTwo granule = true) (addr : UInt64) :
    alignDown addr granule = .ok (addr - addr % granule) := by
  unfold alignDown
  rw [offset_of_isPowerOfTwo h]
  rfl

/-- The aligned address is the granule times the number of the page. -/
theorem toNat_sub_mod (addr granule : UInt64) :
    (addr - addr % granule).toNat = granule.toNat * (addr.toNat / granule.toNat) := by
  have hle : (addr % granule).toNat ≤ addr.toNat := by
    rw [UInt64.toNat_mod]
    exact Nat.mod_le _ _
  have hsplit := Nat.div_add_mod addr.toNat granule.toNat
  rw [toNat_sub_of_le hle, UInt64.toNat_mod]
  omega

/-- Two aligned addresses lie a whole number of pages apart. -/
theorem gap_div {granule low high : Nat} (hpos : 0 < granule) :
    (granule * high - granule * low) / granule = high - low := by
  rw [← Nat.mul_sub, Nat.mul_div_cancel_left _ hpos]

/-! ## The number of pages touched -/

theorem aligned_le {addr last : UInt64} (granule : UInt64) (h : addr.toNat ≤ last.toNat) :
    (addr - addr % granule).toNat ≤ (last - last % granule).toNat := by
  rw [toNat_sub_mod, toNat_sub_mod]
  exact Nat.mul_le_mul_left _ (Nat.div_le_div_right h)

/-- From one address to the next, at most one page further. -/
theorem div_sub_div_le {granule : Nat} (hpos : 0 < granule) {addr last : Nat} (hle : addr ≤ last) :
    last / granule - addr / granule ≤ last - addr := by
  -- On pages of one byte the count would be exact, and a larger page only lowers it.
  have hfar : last ≤ addr + (last - addr) * granule := by
    have hmul := Nat.le_mul_of_pos_right (last - addr) hpos
    omega
  have hdiv : last / granule ≤ (addr + (last - addr) * granule) / granule :=
    Nat.div_le_div_right hfar
  rw [Nat.add_mul_div_right _ _ hpos] at hdiv
  omega

/-- The number of pages from that of `addr` to that of `last`.  All addresses together are left out,
where the count could leave the word. -/
theorem toNat_pagesBetween (hpos : 0 < granule.toNat) {addr last : UInt64}
    (hle : addr.toNat ≤ last.toNat) (hroom : last.toNat - addr.toNat + 1 < UInt64.size) :
    ((last - last % granule - (addr - addr % granule)) / granule + 1).toNat =
      last.toNat / granule.toNat - addr.toNat / granule.toNat + 1 := by
  have hgap : ((last - last % granule - (addr - addr % granule)) / granule).toNat =
      last.toNat / granule.toNat - addr.toNat / granule.toNat := by
    rw [UInt64.toNat_div, toNat_sub_of_le (aligned_le granule hle), toNat_sub_mod, toNat_sub_mod,
      gap_div hpos]
  have hbound := div_sub_div_le hpos hle
  rw [toNat_add_of_lt, hgap]
  · rfl
  · rw [hgap]
    show _ + 1 < _
    omega

/-- The number of pages that a range touches, if it is not empty and stays inside the address space;
it may reach to the very end of it. -/
theorem touched_of_isPowerOfTwo (h : isPowerOfTwo granule = true) {addr length : UInt64}
    (hlength : 0 < length.toNat) (hfits : addr.toNat + length.toNat ≤ UInt64.size) :
    ∃ count, touched addr length granule = .ok count ∧
      count.toNat =
        (addr.toNat + length.toNat - 1) / granule.toNat - addr.toNat / granule.toNat + 1 := by
  have hone : (1 : UInt64).toNat ≤ length.toNat := hlength
  have hpred : (length - 1).toNat = length.toNat - 1 := toNat_sub_of_le hone
  have hreachFits : addr.toNat + (length - 1).toNat < UInt64.size := by omega
  have hreach : (addr + (length - 1)).toNat = addr.toNat + length.toNat - 1 := by
    rw [toNat_add_of_lt hreachFits]
    omega
  have hzero : length ≠ 0 := by
    rintro rfl
    exact absurd hlength (by decide)
  have hword := length.toNat_lt_size
  generalize hlast : addr + (length - 1) = last at hreach
  have hle : addr.toNat ≤ last.toNat := by omega
  refine ⟨(last - last % granule - (addr - addr % granule)) / granule + 1, ?_, ?_⟩
  · unfold touched
    simp only [hzero, ↓reduceIte, alignDown_of_isPowerOfTwo h, checkedAdd_of_lt hreachFits, hlast,
      checkedSub_of_le (aligned_le granule hle), bind, Except.bind]
    rfl
  · rw [toNat_pagesBetween (toNat_pos_of_isPowerOfTwo h) hle (by omega), hreach]

end Page

end DmaQueue

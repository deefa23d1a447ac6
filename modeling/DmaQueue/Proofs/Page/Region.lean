/-
  DmaQueue.Proofs.Page.Region

  Regions in natural numbers.  A usable region is made of whole pages, so it
  covers all of a page or nothing of it; `translate` therefore maps each page as
  one piece.
-/
import DmaQueue.Page.Region
import DmaQueue.Proofs.Page.Granule

namespace DmaQueue

namespace Region

variable {r : Region}

/-- Whether the region maps the virtual address. -/
def covers (r : Region) (addr : Nat) : Bool :=
  r.virt.toNat ≤ addr && addr < r.virt.toNat + r.size.toNat

theorem contains_eq_covers (r : Region) (addr : UInt64) :
    r.contains addr = r.covers addr.toNat := by
  unfold contains covers
  -- Below the region the difference wraps around, but the first comparison fails there.
  by_cases hle : r.virt ≤ addr
  · have hnat := UInt64.le_iff_toNat_le.1 hle
    have hsub : addr - r.virt < r.size ↔ addr.toNat < r.virt.toNat + r.size.toNat := by
      rw [UInt64.lt_iff_toNat_lt, UInt64.toNat_sub_of_le _ _ hle]
      omega
    simp only [hle, hnat, hsub]
  · have hnat := mt UInt64.le_iff_toNat_le.2 hle
    simp only [hle, hnat]
    rfl

/-- What `usable` checks. -/
structure Usable (r : Region) : Prop where
  size_pos : 0 < r.size.toNat
  virt_mod : r.virt.toNat % 4096 = 0
  phys_mod : r.phys.toNat % 4096 = 0
  size_mod : r.size.toNat % 4096 = 0
  fits : r.virt.toNat + r.size.toNat < UInt64.size

theorem usable_iff : r.usable = true ↔ r.Usable := by
  simp only [usable, Bool.and_eq_true, decide_eq_true_eq, beq_iff_eq, ← UInt64.toNat_inj,
    UInt64.toNat_mod, UInt64.lt_iff_toNat_lt, Word.isSome_add?_iff]
  constructor
  · rintro ⟨⟨⟨⟨hpos, hvirt⟩, hphys⟩, hsize⟩, hfits⟩
    exact ⟨hpos, hvirt, hphys, hsize, hfits⟩
  · intro h
    exact ⟨⟨⟨⟨h.size_pos, h.virt_mod⟩, h.phys_mod⟩, h.size_mod⟩, h.fits⟩

/-- A usable region that covers an address of a page covers the whole page. -/
theorem Usable.covers_add (h : r.Usable) {page k : Nat} (hpage : page % 4096 = 0)
    (hk : k < 4096) : r.covers (page + k) = r.covers page := by
  have hvirt := h.virt_mod
  have hsize := h.size_mod
  have hlow : r.virt.toNat ≤ page + k ↔ r.virt.toNat ≤ page := by omega
  have hhigh : page + k < r.virt.toNat + r.size.toNat ↔ page < r.virt.toNat + r.size.toNat := by
    omega
  simp only [covers, hlow, hhigh]

/-- Inside the region the distance from the base is the difference of the words. -/
theorem toNat_sub_of_covers {addr : UInt64} (h : r.covers addr.toNat = true) :
    (addr - r.virt).toNat = addr.toNat - r.virt.toNat := by
  simp only [covers, Bool.and_eq_true, decide_eq_true_eq] at h
  exact Word.toNat_sub_of_le h.1

theorem physOf_of_not_covers {addr : UInt64} (h : r.covers addr.toNat = false) :
    r.physOf addr = .ok none := by
  unfold physOf
  rw [contains_eq_covers, h, if_neg Bool.false_ne_true]
  rfl

/-- The physical address of an address that the region covers, if it fits the word. -/
theorem physOf_of_covers {addr : UInt64} (hcovers : r.covers addr.toNat = true)
    (hfits : r.phys.toNat + (addr.toNat - r.virt.toNat) < UInt64.size) :
    ∃ phys, r.physOf addr = .ok (some phys) ∧
      phys.toNat = r.phys.toNat + (addr.toNat - r.virt.toNat) := by
  rw [← toNat_sub_of_covers hcovers] at hfits ⊢
  refine ⟨r.phys + (addr - r.virt), ?_, Word.toNat_add_of_lt hfits⟩
  unfold physOf
  rw [contains_eq_covers, if_pos hcovers, Word.checkedAdd_of_lt hfits]
  rfl

/-- Only the virtual end of a region was checked, so the sum can leave the word. -/
theorem physOf_of_covers_of_le {addr : UInt64} (hcovers : r.covers addr.toNat = true)
    (hout : UInt64.size ≤ r.phys.toNat + (addr.toNat - r.virt.toNat)) :
    r.physOf addr = .error .overflow := by
  rw [← toNat_sub_of_covers hcovers] at hout
  unfold physOf Word.checkedAdd
  rw [contains_eq_covers, if_pos hcovers, if_neg (Nat.not_lt.2 hout)]
  rfl

/-- A page that has a physical address is covered, and lies as far into the physical memory of the
region as into the region. -/
theorem physOf_eq_ok {page phys : UInt64} (h : r.physOf page = .ok (some phys)) :
    r.covers page.toNat = true ∧
      phys.toNat = r.phys.toNat + (page.toNat - r.virt.toNat) := by
  unfold physOf at h
  split at h
  · rename_i hcontains
    rw [contains_eq_covers] at hcontains
    have hbounds := hcontains
    simp only [covers, Bool.and_eq_true, decide_eq_true_eq] at hbounds
    cases hsum : Word.checkedAdd r.phys (page - r.virt) with
    | error fault => simp [hsum, Functor.map, Except.map] at h
    | ok sum =>
      simp only [hsum, Functor.map, Except.map, Except.ok.injEq, Option.some.injEq] at h
      rw [← h, Word.checkedAdd_eq_ok_iff.1 hsum, Word.toNat_sub_of_le hbounds.1]
      exact ⟨hcontains, rfl⟩
  · simp [pure, Except.pure] at h

/-- The physical address that the regions map a virtual address to: that of the first region that
covers it. -/
def translate (regions : List Region) (addr : Nat) : Option Nat :=
  (regions.find? (·.covers addr)).map fun r => r.phys.toNat + (addr - r.virt.toNat)

end Region

end DmaQueue

/-
  DmaQueue.Proofs.Page.Overlap

  Regions that have no address in common.  The overlap test adds the size of a
  region to its base, which could leave the word; on usable regions it cannot, and
  the test then finds exactly the pairs of regions with an address in common.
-/
import DmaQueue.Proofs.Page.Region

namespace DmaQueue.Region

variable {r s : Region} {regions : List Region}

/-- No virtual address lies in both regions. -/
def Apart (r s : Region) : Prop :=
  ∀ addr, ¬(r.covers addr = true ∧ s.covers addr = true)

/-- Of two regions that lie apart and are not empty, one ends before the other begins. -/
theorem apart_iff (hr : 0 < r.size.toNat) (hs : 0 < s.size.toNat) :
    r.Apart s ↔ r.virt.toNat + r.size.toNat ≤ s.virt.toNat ∨
      s.virt.toNat + s.size.toNat ≤ r.virt.toNat := by
  simp only [Apart, covers, Bool.and_eq_true, decide_eq_true_eq]
  constructor
  · intro h
    -- The higher of the two bases would lie in both regions.
    have hbase := h (max r.virt.toNat s.virt.toNat)
    omega
  · intro h addr
    omega

/-- The overlap test of two usable regions answers, and says whether they lie apart. -/
theorem overlaps_of_usable (hr : r.Usable) (hs : s.Usable) :
    ∃ shared, r.overlaps s = .ok shared ∧ (shared = false ↔ r.Apart s) := by
  have hstop := Word.toNat_add_of_lt hs.fits
  have hstop' := Word.toNat_add_of_lt hr.fits
  rw [apart_iff hr.size_pos hs.size_pos, ← hstop, ← hstop']
  unfold overlaps
  rw [Word.checkedAdd_of_lt hs.fits, Word.checkedAdd_of_lt hr.fits]
  simp only [bind, Except.bind, UInt64.lt_iff_toNat_lt]
  split
  · rename_i hbelow
    refine ⟨_, rfl, ?_⟩
    rw [decide_eq_false_iff_not]
    omega
  · rename_i habove
    refine ⟨false, rfl, ?_⟩
    rw [eq_self, true_iff]
    omega

/-- Among usable regions the search for an overlap answers, and finds none exactly if every region
lies apart from the new one. -/
theorem anyOverlaps_of_usable (hs : s.Usable) (hregions : ∀ r ∈ regions, r.Usable) :
    ∃ shared, s.anyOverlaps regions = .ok shared ∧
      (shared = false ↔ ∀ r ∈ regions, r.Apart s) := by
  induction regions with
  | nil => exact ⟨false, rfl, by simp⟩
  | cons r rest ih =>
    obtain ⟨hr, hrest⟩ := List.forall_mem_cons.1 hregions
    obtain ⟨first, hfirst, hfirstIff⟩ := overlaps_of_usable hr hs
    obtain ⟨later, hlater, hlaterIff⟩ := ih hrest
    simp only [anyOverlaps, hfirst, hlater, bind, Except.bind, List.forall_mem_cons, ← hfirstIff,
      ← hlaterIff]
    cases first with
    | true => exact ⟨true, rfl, by simp⟩
    | false => exact ⟨later, rfl, by simp⟩

/-- Of regions that lie apart from each other at most one maps an address. -/
theorem countP_covers_le_one (h : regions.Pairwise Apart) (addr : Nat) :
    regions.countP (·.covers addr) ≤ 1 := by
  induction h with
  | nil => simp
  | @cons r rest hhead _ ih =>
    by_cases hcovers : r.covers addr = true
    · have hnone : rest.countP (·.covers addr) = 0 := by
        rw [List.countP_eq_zero]
        exact fun s hs hother => hhead s hs addr ⟨hcovers, hother⟩
      have hone : (r :: rest).countP (·.covers addr) = 1 := by
        rw [List.countP_cons, if_pos hcovers, hnone]
      exact Nat.le_of_eq hone
    · rw [List.countP_cons, if_neg hcovers]
      exact ih

/-- Regions that lie apart from each other are known by any address in them. -/
theorem eq_of_covers (h : regions.Pairwise Apart) (hr : r ∈ regions) (hs : s ∈ regions)
    {addr : Nat} (hcovers : r.covers addr = true) (hcovers' : s.covers addr = true) : r = s := by
  induction h with
  | nil => simp at hr
  | @cons first rest hfirst _ ih =>
    rcases List.mem_cons.1 hr with rfl | hr' <;> rcases List.mem_cons.1 hs with rfl | hs'
    · rfl
    · exact absurd ⟨hcovers, hcovers'⟩ (hfirst s hs' addr)
    · exact absurd ⟨hcovers', hcovers⟩ (hfirst r hr' addr)
    · exact ih hr' hs'

end DmaQueue.Region

/-
  DmaQueue.Proofs.Account.Totals

  Counting one thing after the other, from counters that show anything.  In the
  end each counter shows its total, or the largest word, and the order does not
  matter.  The descriptors of both sides are added up without that limit, so
  their sum is answered only while it fits the word (`totals_of_recordAll`).
-/
import DmaQueue.Proofs.Tally

namespace DmaQueue

namespace Tally

open Word

/-! ## What is counted, one after the other -/

/-- Something that an engine counts. -/
inductive Occurrence where
  | submitted
  | rejected
  | rollback
  | descriptor (side : Side)
  | stall
  | reclaimed (pages : Nat)
  deriving DecidableEq, Repr

/-- The counters after one more occurrence. -/
def record (tally : Tally) : Occurrence → Tally
  | .submitted => tally.countSubmitted
  | .rejected => tally.countRejected
  | .rollback => tally.countRollback
  | .descriptor side => tally.countDescriptor side
  | .stall => tally.countStall
  | .reclaimed pages => tally.countReclaimed pages

/-- The counters after several occurrences. -/
def recordAll (tally : Tally) (occurrences : List Occurrence) : Tally :=
  occurrences.foldl record tally

/-- How much an occurrence adds to a counter. -/
def Occurrence.adds : Occurrence → Counter → Nat
  | .submitted => counting .submitted 1
  | .rejected => counting .rejected 1
  | .rollback => counting .rollbacks 1
  | .descriptor side => counting (.descriptors side) 1
  | .stall => counting .stalls 1
  | .reclaimed pages => fun c => counting .reclaimedTransfers 1 c + counting .reclaimedPages pages c

/-- How much some occurrences add to a counter. -/
def total : List Occurrence → Counter → Nat
  | [], _ => 0
  | occurrence :: rest, c => occurrence.adds c + total rest c

/-! ## Totals -/

/-- Totals do not depend on an order. -/
theorem total_perm {occurrences reordered : List Occurrence} (h : reordered.Perm occurrences)
    (c : Counter) : total reordered c = total occurrences c := by
  induction h with
  | nil => rfl
  | cons occurrence _ ih => simp only [total, ih]
  | swap first second rest =>
    simp only [total]
    omega
  | trans _ _ ih ih' => exact ih.trans ih'

theorem record_eq_plus (tally : Tally) (occurrence : Occurrence) :
    tally.record occurrence = tally.plus occurrence.adds := by
  cases occurrence with
  | submitted => exact countSubmitted_eq_plus tally
  | rejected => exact countRejected_eq_plus tally
  | rollback => exact countRollback_eq_plus tally
  | descriptor side => exact countDescriptor_eq_plus side tally
  | stall => exact countStall_eq_plus tally
  | reclaimed pages => exact countReclaimed_eq_plus pages tally

/-- Only the totals of what is counted show in the counters. -/
theorem recordAll_eq_plus (tally : Tally) (occurrences : List Occurrence) :
    tally.recordAll occurrences = tally.plus (total occurrences) := by
  induction occurrences generalizing tally with
  | nil => exact (plus_of_zero fun _ => rfl).symm
  | cons occurrence rest ih =>
    have hfirst : tally.recordAll (occurrence :: rest) =
        (tally.record occurrence).recordAll rest := rfl
    rw [hfirst, ih, record_eq_plus, plus_plus]
    exact plus_congr fun c => rfl

/-! ## The sum of the descriptors -/

/-- As long as it fits the word, the sum is answered, and no limit applies to it. -/
theorem descriptors_of_lt {tally : Tally}
    (h : tally.sourceDescriptors.toNat + tally.destDescriptors.toNat < UInt64.size) :
    ∃ sum, tally.descriptors = .ok sum ∧
      sum.toNat = min (tally.sourceDescriptors.toNat + tally.destDescriptors.toNat)
        (UInt64.size - 1) := by
  refine ⟨tally.sourceDescriptors + tally.destDescriptors, if_pos h, ?_⟩
  rw [UInt64.toNat_add, Nat.mod_eq_of_lt h]
  omega

theorem descriptors_of_le {tally : Tally}
    (h : UInt64.size ≤ tally.sourceDescriptors.toNat + tally.destDescriptors.toNat) :
    tally.descriptors = .error .overflow :=
  if_neg (Nat.not_lt.2 h)

/-- Whatever the counters show at first and whatever is counted: each counter comes to show its
total, or the largest word if that is smaller, and the order of what is counted does not matter.
The sum of both sides' descriptors is answered then exactly if it fits the word; where it does not,
it faults. -/
theorem totals_of_recordAll (start : Tally) (occurrences : List Occurrence) :
    let final := start.recordAll occurrences
    (∀ c, (final.counter c).toNat =
        min ((start.counter c).toNat + total occurrences c) (UInt64.size - 1)) ∧
      (∀ reordered : List Occurrence, reordered.Perm occurrences →
        start.recordAll reordered = final) ∧
      (final.sourceDescriptors.toNat + final.destDescriptors.toNat < UInt64.size →
        ∃ sum, final.descriptors = .ok sum ∧
          sum.toNat = min (final.sourceDescriptors.toNat + final.destDescriptors.toNat)
            (UInt64.size - 1)) ∧
      (UInt64.size ≤ final.sourceDescriptors.toNat + final.destDescriptors.toNat →
        final.descriptors = .error .overflow) := by
  refine ⟨?_, ?_, descriptors_of_lt, descriptors_of_le⟩
  · intro c
    rw [recordAll_eq_plus, counter_plus, toNat_saturatingAdd]
  · intro reordered hperm
    rw [recordAll_eq_plus, recordAll_eq_plus]
    exact plus_congr (total_perm hperm)

/-- One below the largest word, the source descriptors still add up with those of the other side;
the pages reach the largest word and stay there. -/
theorem totals_near_largest :
    let start : Tally :=
      { sourceDescriptors := 0xfffffffffffffffd, reclaimedPages := 0xfffffffffffffffe }
    let occurrences := [.descriptor .source, .reclaimed 5, .descriptor .dest, .reclaimed 2]
    let final := start.recordAll occurrences
    (final.counter .reclaimedPages).toNat = UInt64.size - 1 ∧
      (final.counter (.descriptors .source)).toNat = UInt64.size - 2 ∧
      start.recordAll occurrences.reverse = final ∧
      ∃ sum, final.descriptors = .ok sum ∧ sum.toNat = UInt64.size - 1 := by
  intro start occurrences final
  obtain ⟨hcounters, hperm, hsum, -⟩ := totals_of_recordAll start occurrences
  exact ⟨(hcounters .reclaimedPages).trans (by decide),
    (hcounters (.descriptors .source)).trans (by decide),
    hperm occurrences.reverse (List.reverse_perm occurrences), hsum (by decide)⟩

/-- With the source descriptors at the largest word, one descriptor of the other side is counted,
but the sum of both is not answered any more. -/
theorem descriptors_overflow :
    let final := Tally.recordAll { sourceDescriptors := 0xffffffffffffffff } [.descriptor .dest]
    final.sourceDescriptors = 0xffffffffffffffff ∧ final.destDescriptors = 1 ∧
      min (final.sourceDescriptors.toNat + final.destDescriptors.toNat) (UInt64.size - 1) =
        UInt64.size - 1 ∧
      final.descriptors = .error .overflow :=
  ⟨rfl, rfl, by decide, rfl⟩

end Tally

end DmaQueue

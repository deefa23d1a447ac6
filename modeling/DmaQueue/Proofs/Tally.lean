/-
  DmaQueue.Proofs.Tally

  The counters of an engine, all of one kind: each grows by what is counted, and
  stays at the largest word.  So only the totals matter, not the order in which
  things are counted (`plus_plus`).
-/
import DmaQueue.Tally

namespace DmaQueue

namespace Word

theorem saturatingAdd_zero (a : UInt64) : saturatingAdd a 0 = a := by
  have hlt := a.toNat_lt_size
  rw [← UInt64.toNat_inj, toNat_saturatingAdd]
  omega

/-- One sum after the other is one sum: what has reached the largest word stays there. -/
theorem saturatingAdd_saturatingAdd (a : UInt64) (m n : Nat) :
    saturatingAdd (saturatingAdd a m) n = saturatingAdd a (m + n) := by
  rw [← UInt64.toNat_inj, toNat_saturatingAdd, toNat_saturatingAdd, toNat_saturatingAdd]
  omega

/-- A sum that is not the largest word is the sum of the numbers. -/
theorem toNat_saturatingAdd_of_lt {a : UInt64} {n : Nat}
    (h : (saturatingAdd a n).toNat < UInt64.size - 1) :
    (saturatingAdd a n).toNat = a.toNat + n := by
  rw [toNat_saturatingAdd] at h ⊢
  omega

end Word

namespace Tally

open Word

/-! ## Counters -/

/-- What an engine counts. -/
inductive Counter where
  | submitted
  | rejected
  | rollbacks
  | descriptors (side : Side)
  | stalls
  | reclaimedTransfers
  | reclaimedPages
  deriving DecidableEq

/-- The value of a counter. -/
def counter (tally : Tally) : Counter → UInt64
  | .submitted => tally.submitted
  | .rejected => tally.rejected
  | .rollbacks => tally.rollbacks
  | .descriptors .source => tally.sourceDescriptors
  | .descriptors .dest => tally.destDescriptors
  | .stalls => tally.stalls
  | .reclaimedTransfers => tally.reclaimedTransfers
  | .reclaimedPages => tally.reclaimedPages

/-- No counter has reached the largest word. -/
def Unsaturated (tally : Tally) : Prop :=
  ∀ c, (tally.counter c).toNat < UInt64.size - 1

/-- The counters after so much more was counted with each. -/
def plus (tally : Tally) (more : Counter → Nat) : Tally where
  submitted := saturatingAdd tally.submitted (more .submitted)
  rejected := saturatingAdd tally.rejected (more .rejected)
  rollbacks := saturatingAdd tally.rollbacks (more .rollbacks)
  sourceDescriptors := saturatingAdd tally.sourceDescriptors (more (.descriptors .source))
  destDescriptors := saturatingAdd tally.destDescriptors (more (.descriptors .dest))
  stalls := saturatingAdd tally.stalls (more .stalls)
  reclaimedTransfers := saturatingAdd tally.reclaimedTransfers (more .reclaimedTransfers)
  reclaimedPages := saturatingAdd tally.reclaimedPages (more .reclaimedPages)

/-- So much counted with one counter, and nothing with the others. -/
def counting (c : Counter) (n : Nat) : Counter → Nat :=
  fun d => if d = c then n else 0

variable {tally : Tally}

theorem counter_plus (tally : Tally) (more : Counter → Nat) (c : Counter) :
    (tally.plus more).counter c = saturatingAdd (tally.counter c) (more c) := by
  cases c with
  | descriptors side => cases side <;> rfl
  | submitted | rejected | rollbacks | stalls | reclaimedTransfers | reclaimedPages => rfl

/-- A new engine has counted nothing. -/
theorem counter_new (c : Counter) : counter {} c = 0 := by
  cases c with
  | descriptors side => cases side <;> rfl
  | submitted | rejected | rollbacks | stalls | reclaimedTransfers | reclaimedPages => rfl

/-- Counters that show the same are the same. -/
theorem ext_counter {tally' : Tally} (h : ∀ c, tally.counter c = tally'.counter c) :
    tally = tally' := by
  obtain ⟨_, _, _, _, _, _, _, _⟩ := tally
  obtain ⟨_, _, _, _, _, _, _, _⟩ := tally'
  rw [Tally.mk.injEq]
  exact ⟨h .submitted, h .rejected, h .rollbacks, h (.descriptors .source),
    h (.descriptors .dest), h .stalls, h .reclaimedTransfers, h .reclaimedPages⟩

theorem plus_congr {more more' : Counter → Nat} (h : ∀ c, more c = more' c) :
    tally.plus more = tally.plus more' := by
  rw [funext h]

theorem plus_of_zero {none : Counter → Nat} (h : ∀ c, none c = 0) : tally.plus none = tally := by
  apply ext_counter
  intro c
  rw [counter_plus, h, saturatingAdd_zero]

/-- The totals are all that matters. -/
theorem plus_plus (tally : Tally) (first second : Counter → Nat) :
    (tally.plus first).plus second = tally.plus fun c => first c + second c := by
  apply ext_counter
  intro c
  rw [counter_plus, counter_plus, counter_plus, saturatingAdd_saturatingAdd]

/-- As long as the largest word is not reached, a counter shows its total. -/
theorem Unsaturated.toNat_counter {more : Counter → Nat} (h : (tally.plus more).Unsaturated)
    (c : Counter) : ((tally.plus more).counter c).toNat = (tally.counter c).toNat + more c := by
  have hc := h c
  rw [counter_plus] at hc ⊢
  exact toNat_saturatingAdd_of_lt hc

/-! ## What is counted -/

theorem countSubmitted_eq_plus (tally : Tally) :
    tally.countSubmitted = tally.plus (counting .submitted 1) := by
  simp [countSubmitted, plus, counting, saturatingAdd_zero]

theorem countRejected_eq_plus (tally : Tally) :
    tally.countRejected = tally.plus (counting .rejected 1) := by
  simp [countRejected, plus, counting, saturatingAdd_zero]

theorem countRollback_eq_plus (tally : Tally) :
    tally.countRollback = tally.plus (counting .rollbacks 1) := by
  simp [countRollback, plus, counting, saturatingAdd_zero]

theorem countDescriptor_eq_plus (side : Side) (tally : Tally) :
    tally.countDescriptor side = tally.plus (counting (.descriptors side) 1) := by
  cases side <;> simp [countDescriptor, plus, counting, saturatingAdd_zero]

theorem countStall_eq_plus (tally : Tally) :
    tally.countStall = tally.plus (counting .stalls 1) := by
  simp [countStall, plus, counting, saturatingAdd_zero]

theorem countReclaimed_eq_plus (pages : Nat) (tally : Tally) :
    tally.countReclaimed pages =
      tally.plus fun c => counting .reclaimedTransfers 1 c + counting .reclaimedPages pages c := by
  simp [countReclaimed, plus, counting, saturatingAdd_zero]

end Tally

end DmaQueue

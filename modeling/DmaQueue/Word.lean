/-
  DmaQueue.Word

  Arithmetic on 64-bit words that does not wrap: a result that leaves the word
  is a fault (`checkedAdd`, `checkedSub`, `checkedMul`), an absent value
  (`add?`, `double?`), or the largest word (`saturatingAdd`).  The lemmas say
  what each operation means on natural numbers.
-/
import DmaQueue.Fault

namespace DmaQueue.Word

/-! ## Sums, differences and products -/

/-- The sum, if it fits the word. -/
def add? (a b : UInt64) : Option UInt64 :=
  if a.toNat + b.toNat < UInt64.size then some (a + b) else none

/-- Twice the word, if that fits. -/
def double? (a : UInt64) : Option UInt64 :=
  if 2 * a.toNat < UInt64.size then some (2 * a) else none

/-- The sum; a fault if it does not fit. -/
def checkedAdd (a b : UInt64) : Except Fault UInt64 :=
  if a.toNat + b.toNat < UInt64.size then .ok (a + b) else .error .overflow

/-- The difference; a fault if it is negative. -/
def checkedSub (a b : UInt64) : Except Fault UInt64 :=
  if b ≤ a then .ok (a - b) else .error .overflow

/-- The product; a fault if it does not fit. -/
def checkedMul (a b : UInt64) : Except Fault UInt64 :=
  if a.toNat * b.toNat < UInt64.size then .ok (a * b) else .error .overflow

/-- The sum, or the largest word where the sum is larger than that. -/
def saturatingAdd (a : UInt64) (n : Nat) : UInt64 :=
  UInt64.ofNat (min (a.toNat + n) (UInt64.size - 1))

/-- Holds of 1, 2, 4, 8, … and of no other word. -/
def isPowerOfTwo (a : UInt64) : Bool :=
  a.toNat == 1 <<< a.toNat.log2

/-! ## Meaning on natural numbers -/

theorem add?_eq_some_iff {a b c : UInt64} :
    add? a b = some c ↔ c.toNat = a.toNat + b.toNat := by
  unfold add?
  have hc := c.toNat_lt_size
  split
  · rename_i h
    rw [Option.some.injEq, ← UInt64.toNat_inj, UInt64.toNat_add, Nat.mod_eq_of_lt h, eq_comm]
  · simp only [reduceCtorEq, false_iff]
    omega

theorem double?_eq_some_iff {a c : UInt64} :
    double? a = some c ↔ c.toNat = 2 * a.toNat := by
  unfold double?
  have hc := c.toNat_lt_size
  split
  · rename_i h
    have htwo : (2 : UInt64).toNat = 2 := rfl
    rw [Option.some.injEq, ← UInt64.toNat_inj, UInt64.toNat_mul, htwo, Nat.mod_eq_of_lt h, eq_comm]
  · simp only [reduceCtorEq, false_iff]
    omega

theorem checkedAdd_eq_ok_iff {a b c : UInt64} :
    checkedAdd a b = .ok c ↔ c.toNat = a.toNat + b.toNat := by
  unfold checkedAdd
  have hc := c.toNat_lt_size
  split
  · rename_i h
    rw [Except.ok.injEq, ← UInt64.toNat_inj, UInt64.toNat_add, Nat.mod_eq_of_lt h, eq_comm]
  · simp only [reduceCtorEq, false_iff]
    omega

theorem checkedSub_eq_ok_iff {a b c : UInt64} :
    checkedSub a b = .ok c ↔ a.toNat = b.toNat + c.toNat := by
  unfold checkedSub
  split
  · rename_i h
    have hle : b.toNat ≤ a.toNat := UInt64.le_iff_toNat_le.1 h
    rw [Except.ok.injEq, ← UInt64.toNat_inj, UInt64.toNat_sub_of_le _ _ h]
    omega
  · rename_i h
    rw [UInt64.le_iff_toNat_le] at h
    simp only [reduceCtorEq, false_iff]
    omega

theorem checkedMul_eq_ok_iff {a b c : UInt64} :
    checkedMul a b = .ok c ↔ c.toNat = a.toNat * b.toNat := by
  unfold checkedMul
  have hc := c.toNat_lt_size
  split
  · rename_i h
    rw [Except.ok.injEq, ← UInt64.toNat_inj, UInt64.toNat_mul, Nat.mod_eq_of_lt h, eq_comm]
  · simp only [reduceCtorEq, false_iff]
    omega

theorem toNat_saturatingAdd (a : UInt64) (n : Nat) :
    (saturatingAdd a n).toNat = min (a.toNat + n) (UInt64.size - 1) := by
  unfold saturatingAdd
  rw [UInt64.toNat_ofNat']
  refine Nat.mod_eq_of_lt (Nat.lt_of_le_of_lt (Nat.min_le_right _ _) ?_)
  decide

end DmaQueue.Word

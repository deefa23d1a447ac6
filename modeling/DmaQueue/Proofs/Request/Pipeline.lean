/-
  DmaQueue.Proofs.Request.Pipeline

  The function units as a pipeline over unbounded numbers.  A stream enters at
  one unit; from units 1 and 2 it goes on to the next one if the lowest bit of
  the attribute says so, and each unit uses up one bit.  `outputLength` is the
  number of bytes that leave the pipeline, wherever the doubling fits the word
  (`outputLength_pipelined`).
-/
import DmaQueue.Request.OutputLength

namespace DmaQueue.Request

open Word

/-- The number of bytes that come out of the pipeline for `n` bytes that enter it at `unit`. -/
def pipeline (unit attr : Int) (n : Nat) : Nat :=
  let out := if unit = 1 then 2 * n else if unit = 3 then n / 2 else n
  if (unit = 1 ∨ unit = 2) ∧ attr % 2 = 1 then pipeline (unit + 1) (attr >>> (1 : Nat)) out else out
termination_by (3 - unit).toNat

variable {opcode attr : Int32} {input output : UInt64}

/-! ## The units -/

theorem pipeline_one (attr : Int) (n : Nat) :
    pipeline 1 attr n =
      if attr % 2 = 1 then pipeline 2 (attr >>> (1 : Nat)) (2 * n) else 2 * n := by
  rw [pipeline]
  simp

theorem pipeline_two (attr : Int) (n : Nat) :
    pipeline 2 attr n = if attr % 2 = 1 then pipeline 3 (attr >>> (1 : Nat)) n else n := by
  rw [pipeline]
  simp

theorem pipeline_three (attr : Int) (n : Nat) : pipeline 3 attr n = n / 2 := by
  rw [pipeline]
  simp

theorem pipeline_of_copies {unit : Int} (hone : unit ≠ 1) (htwo : unit ≠ 2) (hthree : unit ≠ 3)
    (attr : Int) (n : Nat) : pipeline unit attr n = n := by
  rw [pipeline]
  simp [hone, htwo, hthree]

/-! ## The length that is computed -/

theorem bit_iff (word : Int32) (place : Nat) :
    bit word place = true ↔ (word.toInt >>> place) % 2 = 1 :=
  beq_iff_eq

/-- The stream is doubled if it enters at unit 1, and halved if it ever comes to unit 3. -/
theorem pipeline_eq_halves (opcode attr : Int32) (n : Nat) :
    pipeline opcode.toInt attr.toInt n =
      let stretched := if opcode = 1 then 2 * n else n
      if halves opcode attr then stretched / 2 else stretched := by
  -- From each unit on there is at most one way to the next, so a case for each unit is enough.
  by_cases hone : opcode = 1
  · subst hone
    have hunit : (1 : Int32).toInt = 1 := rfl
    by_cases hlow : attr.toInt % 2 = 1
    · simp [hunit, pipeline_one, pipeline_two, pipeline_three, halves, bit_iff, hlow]
    · simp [hunit, pipeline_one, halves, bit_iff, hlow]
  by_cases htwo : opcode = 2
  · subst htwo
    have hunit : (2 : Int32).toInt = 2 := rfl
    simp [hunit, pipeline_two, pipeline_three, halves, bit_iff]
  by_cases hthree : opcode = 3
  · subst hthree
    have hunit : (3 : Int32).toInt = 3 := rfl
    simp [hunit, pipeline_three, halves]
  rw [pipeline_of_copies]
  · simp [hone, htwo, hthree, halves]
  · exact fun h => hone (Int32.toInt_inj.1 h)
  · exact fun h => htwo (Int32.toInt_inj.1 h)
  · exact fun h => hthree (Int32.toInt_inj.1 h)

theorem toNat_div_two (a : UInt64) : (a / 2).toNat = a.toNat / 2 :=
  UInt64.toNat_div a 2

/-- What comes of a stream after it was doubled or not. -/
theorem halved_eq_some_iff (stretched : UInt64) :
    (some (if halves opcode attr then stretched / 2 else stretched) = some output) ↔
      output.toNat = if halves opcode attr then stretched.toNat / 2 else stretched.toNat := by
  rw [Option.some.injEq, eq_comm, ← UInt64.toNat_inj]
  split
  · rw [toNat_div_two]
  · rfl

/-- A length is computed exactly if doubling, where it is asked for, fits the word; and it is the
one that leaves the pipeline. -/
theorem outputLength_eq_some_iff :
    outputLength opcode attr input = some output ↔
      (opcode = 1 → 2 * input.toNat < UInt64.size) ∧
        output.toNat = pipeline opcode.toInt attr.toInt input.toNat := by
  rw [pipeline_eq_halves]
  unfold outputLength
  by_cases hone : opcode = 1
  · simp only [hone, beq_self_eq_true, if_true, forall_const]
    cases hdouble : double? input with
    | none =>
      have hout : ¬2 * input.toNat < UInt64.size := fun hfits => by simp [double?, hfits] at hdouble
      simp [hout]
    | some doubled =>
      have hnat := double?_eq_some_iff.1 hdouble
      have hfits : 2 * input.toNat < UInt64.size := hnat ▸ doubled.toNat_lt_size
      rw [← hnat] at hfits ⊢
      simpa [hfits] using halved_eq_some_iff doubled
  · simpa [hone] using halved_eq_some_iff input

theorem outputLength_eq_none_iff :
    outputLength opcode attr input = none ↔ opcode = 1 ∧ UInt64.size ≤ 2 * input.toNat := by
  unfold outputLength
  by_cases hone : opcode = 1
  · by_cases hfits : 2 * input.toNat < UInt64.size
    · simp [hone, double?, hfits]
    · simp [hone, double?, hfits, Nat.not_lt.1 hfits]
  · simp [hone]

/-! ## What follows from the pipeline -/

/-- A length that is computed is the one that leaves the pipeline, and none is computed exactly
where the doubling leaves the word. -/
theorem map_outputLength (opcode attr : Int32) (input : UInt64) :
    (outputLength opcode attr input).map UInt64.toNat =
      if opcode = 1 ∧ UInt64.size ≤ 2 * input.toNat then none
      else some (pipeline opcode.toInt attr.toInt input.toNat) := by
  cases houtput : outputLength opcode attr input with
  | none => rw [if_pos (outputLength_eq_none_iff.1 houtput), Option.map_none]
  | some output =>
    obtain ⟨hfits, hpipeline⟩ := outputLength_eq_some_iff.1 houtput
    rw [if_neg fun h => Nat.not_lt.2 h.2 (hfits h.1), Option.map_some, hpipeline]

/-- Of the attribute the two lowest bits have a part in the length, and no others. -/
theorem outputLength_congr {attr' : Int32} (h : ∀ place < 2, bit attr' place = bit attr place)
    (opcode : Int32) (input : UInt64) :
    outputLength opcode attr' input = outputLength opcode attr input := by
  rw [outputLength, outputLength, halves, halves, h 0 (by decide), h 1 (by decide)]

/-- A longer stream does not come out shorter. -/
theorem pipeline_mono (opcode attr : Int32) {n m : Nat} (h : n ≤ m) :
    pipeline opcode.toInt attr.toInt n ≤ pipeline opcode.toInt attr.toInt m := by
  have hstretched : (if opcode = 1 then 2 * n else n) ≤ if opcode = 1 then 2 * m else m := by
    split <;> omega
  rw [pipeline_eq_halves, pipeline_eq_halves]
  simp only
  split
  · exact Nat.div_le_div_right hstretched
  · exact hstretched

/-- Where a length is computed, one is computed for every shorter stream, and it is not greater. -/
theorem outputLength_mono {input' output' : UInt64} (hle : input ≤ input')
    (h : outputLength opcode attr input' = some output') :
    ∃ output, outputLength opcode attr input = some output ∧ output ≤ output' := by
  have hnat : input.toNat ≤ input'.toNat := UInt64.le_iff_toNat_le.1 hle
  obtain ⟨hfits, hpipeline⟩ := outputLength_eq_some_iff.1 h
  cases houtput : outputLength opcode attr input with
  | none =>
    obtain ⟨hone, hout⟩ := outputLength_eq_none_iff.1 houtput
    have hlt := hfits hone
    omega
  | some output =>
    refine ⟨output, rfl, UInt64.le_iff_toNat_le.2 ?_⟩
    rw [hpipeline, (outputLength_eq_some_iff.1 houtput).2]
    exact pipeline_mono opcode attr hnat

/-- A stream that is doubled, passed on and halved comes out as long as it was. -/
theorem pipeline_one_of_bits (hlow : bit attr 0 = true) (hhigh : bit attr 1 = true) (n : Nat) :
    pipeline 1 attr.toInt n = n := by
  have hfirst : attr.toInt % 2 = 1 := by simpa using (bit_iff attr 0).1 hlow
  rw [pipeline_one, if_pos hfirst, pipeline_two, if_pos ((bit_iff attr 1).1 hhigh), pipeline_three]
  omega

/-- The length that is computed is the one that leaves the pipeline, for every opcode, every
attribute and every length; and there is none exactly where unit 1 leaves the word, though a unit
after it may halve again.  So only the two lowest bits of the attribute count, a longer stream does
not come out shorter, and a stream through all three units comes out as long as it was. -/
theorem outputLength_pipelined (opcode attr : Int32) (input : UInt64) :
    (outputLength opcode attr input).map UInt64.toNat =
        (if opcode = 1 ∧ UInt64.size ≤ 2 * input.toNat then none
        else some (pipeline opcode.toInt attr.toInt input.toNat)) ∧
      (∀ attr', (∀ place < 2, bit attr' place = bit attr place) →
        outputLength opcode attr' input = outputLength opcode attr input) ∧
      (∀ input' output', input ≤ input' → outputLength opcode attr input' = some output' →
        ∃ output, outputLength opcode attr input = some output ∧ output ≤ output') ∧
      (opcode = 1 → bit attr 0 = true → bit attr 1 = true →
        ∀ output, outputLength opcode attr input = some output → output = input) := by
  refine ⟨map_outputLength opcode attr input, ?_, ?_, ?_⟩
  · intro attr' hbits
    exact outputLength_congr hbits opcode input
  · intro input' output' hle houtput
    exact outputLength_mono hle houtput
  · rintro rfl hlow hhigh output houtput
    have hsame := (outputLength_eq_some_iff.1 houtput).2
    rw [show (1 : Int32).toInt = 1 from rfl, pipeline_one_of_bits hlow hhigh] at hsame
    exact UInt64.toNat_inj.1 hsame

/-- A stream through all three units, with a negative attribute: it comes out as long as it was, as
with any attribute that ends in two set bits, and a shorter one comes out no longer.  A stream with
one byte more has no length, though it would be halved again. -/
theorem outputLength_pipelined_chained :
    let most : UInt64 := 0x7fff_ffff_ffff_ffff
    outputLength 1 (-1) most = some most ∧ outputLength 1 3 most = some most ∧
      (∃ output, outputLength 1 (-1) 0x1001 = some output ∧ output ≤ most) ∧
      outputLength 1 (-1) (most + 1) = none := by
  intro most
  obtain ⟨-, hbits, -, hwhole⟩ := outputLength_pipelined 1 (-1) most
  obtain ⟨-, -, hshorter, -⟩ := outputLength_pipelined 1 (-1) 0x1001
  obtain ⟨hlonger, -⟩ := outputLength_pipelined 1 (-1) (most + 1)
  have hanswer : (outputLength 1 (-1) most).isSome = true := by decide
  obtain ⟨output, houtput⟩ := Option.isSome_iff_exists.1 hanswer
  obtain rfl := hwhole rfl (by decide) (by decide) output houtput
  refine ⟨houtput, ?_, hshorter _ _ (by decide) houtput, ?_⟩
  · rw [hbits 3 (by decide)]
    exact houtput
  · rw [if_pos (by decide)] at hlonger
    exact Option.map_eq_none_iff.1 hlonger

end DmaQueue.Request

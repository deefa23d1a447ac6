/-
  DmaQueue.Proofs.Descriptor.Fields

  Reading a descriptor gives back what was packed into it: the fields do not
  overlap, so each is a quotient and a remainder of the word.
-/
import DmaQueue.Descriptor

namespace DmaQueue.Descriptor

variable {opcode addr length attr : Nat} {last : Bool}

/-- The values have room in their fields. -/
structure Fits (opcode addr length attr : Nat) : Prop where
  opcode : opcode < 8
  addr_mod : addr % 64 = 0
  addr_lt : addr < 0x4_0000_0000
  length : length < 0x20_0000
  attr : attr < 0x100

/-- The word of a descriptor, as the sum of its shifted fields. -/
theorem toNat_raw_pack (h : Fits opcode addr length attr) :
    (pack opcode addr length last attr).raw.toNat =
      opcode + addr + length * 0x4_0000_0000 + (if last then 0x80_0000_0000_0000 else 0) +
        attr * 0x100_0000_0000_0000 := by
  have ⟨hopcode, _, haddr, hlength, hattr⟩ := h
  unfold pack
  rw [UInt64.toNat_ofNat']
  -- The shifted fields do not overlap, so their sum stays in the word.
  apply Nat.mod_eq_of_lt
  show _ < 0x1_0000_0000_0000_0000
  cases last <;> simp only [Bool.false_eq_true, ↓reduceIte] <;> omega

theorem opcode_pack (h : Fits opcode addr length attr) :
    (pack opcode addr length last attr).opcode = opcode := by
  have ⟨hopcode, hmod, haddr, hlength, hattr⟩ := h
  rw [Descriptor.opcode, toNat_raw_pack h]
  cases last <;> simp only [Bool.false_eq_true, ↓reduceIte] <;> omega

theorem toNat_address_pack (h : Fits opcode addr length attr) :
    (pack opcode addr length last attr).address.toNat = addr := by
  have ⟨hopcode, hmod, haddr, hlength, hattr⟩ := h
  have hfield : (pack opcode addr length last attr).raw.toNat / 64 % 0x1000_0000 * 64 = addr := by
    rw [toNat_raw_pack h]
    cases last <;> simp only [Bool.false_eq_true, ↓reduceIte] <;> omega
  rw [address, hfield, UInt64.toNat_ofNat']
  apply Nat.mod_eq_of_lt
  show _ < 0x1_0000_0000_0000_0000
  omega

theorem length_pack (h : Fits opcode addr length attr) :
    (pack opcode addr length last attr).length = length := by
  have ⟨hopcode, hmod, haddr, hlength, hattr⟩ := h
  rw [Descriptor.length, toNat_raw_pack h]
  cases last <;> simp only [Bool.false_eq_true, ↓reduceIte] <;> omega

theorem attr_pack (h : Fits opcode addr length attr) :
    (pack opcode addr length last attr).attr = attr := by
  have ⟨hopcode, hmod, haddr, hlength, hattr⟩ := h
  rw [Descriptor.attr, toNat_raw_pack h]
  cases last <;> simp only [Bool.false_eq_true, ↓reduceIte] <;> omega

theorem isLast_pack (h : Fits opcode addr length attr) :
    (pack opcode addr length last attr).isLast = last := by
  have ⟨hopcode, hmod, haddr, hlength, hattr⟩ := h
  rw [isLast, toNat_raw_pack h]
  cases last
  case false =>
    have hbit : (opcode + addr + length * 0x4_0000_0000 + 0 + attr * 0x100_0000_0000_0000) /
        0x80_0000_0000_0000 % 2 = 0 := by omega
    simp only [Bool.false_eq_true, ↓reduceIte, hbit]
    rfl
  case true =>
    have hbit : (opcode + addr + length * 0x4_0000_0000 + 0x80_0000_0000_0000 +
        attr * 0x100_0000_0000_0000) / 0x80_0000_0000_0000 % 2 = 1 := by omega
    simp only [↓reduceIte, hbit]
    rfl

theorem addressFits_iff {addr : UInt64} :
    addressFits addr = true ↔ addr.toNat % 64 = 0 ∧ addr.toNat < 0x4_0000_0000 := by
  simp only [addressFits, Bool.and_eq_true, beq_iff_eq, decide_eq_true_eq]

/-- A chunk that is not too long has a descriptor exactly if its address fits. -/
theorem withFields_of_le {addr length : UInt64} (hlength : length ≤ maxChunkLength) :
    withFields opcode attr addr length last =
      if addressFits addr then .ok (pack opcode addr.toNat length.toNat last attr)
      else .error .descriptorAddress := by
  unfold withFields
  rw [if_neg (UInt64.not_lt.2 hlength)]
  cases addressFits addr <;> rfl

/-- A chunk whose address and length fit has a descriptor. -/
theorem withFields_of_fits {addr length : UInt64} (hmod : addr.toNat % 64 = 0)
    (hlt : addr.toNat < 0x4_0000_0000) (hlength : length ≤ maxChunkLength) :
    withFields opcode attr addr length last =
      .ok (pack opcode addr.toNat length.toNat last attr) := by
  rw [withFields_of_le hlength, if_pos (addressFits_iff.2 ⟨hmod, hlt⟩)]

/-- A descriptor that was made has fields that fit. -/
theorem withFields_eq_ok {addr length : UInt64} {d : Descriptor}
    (h : withFields opcode attr addr length last = .ok d) :
    addr.toNat % 64 = 0 ∧ addr.toNat < 0x4_0000_0000 ∧ length ≤ maxChunkLength ∧
      d = pack opcode addr.toNat length.toNat last attr := by
  by_cases hlength : length ≤ maxChunkLength
  · rw [withFields_of_le hlength] at h
    split at h
    · rename_i hfits
      obtain ⟨hmod, hlt⟩ := addressFits_iff.1 hfits
      exact ⟨hmod, hlt, hlength, (Except.ok.inj h).symm⟩
    · simp at h
  · unfold withFields at h
    rw [if_pos (UInt64.not_le.1 hlength)] at h
    split at h <;> simp at h

end DmaQueue.Descriptor

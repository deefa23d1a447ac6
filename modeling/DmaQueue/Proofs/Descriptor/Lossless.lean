/-
  DmaQueue.Proofs.Descriptor.Lossless

  A descriptor loses nothing that has room in its fields.  Making one fails
  exactly if the address or the length has a bit outside its field; else every
  field is read back, of the opcode and the attribute as many bits as the word
  has for them.  The two halves are the word, so a descriptor that is handed to a
  FIFO is found there as it was (`lossless`).
-/
import DmaQueue.Proofs.Descriptor.Fields
import DmaQueue.Proofs.Register.DescriptorFifos
import Mathlib.Data.Nat.Bitwise

namespace DmaQueue

namespace Descriptor

/-! ## Bits outside the fields -/

/-- The address has a bit outside bits 6 to 33, or the length has one above bit 20. -/
def Overruns (addr length : UInt64) : Prop :=
  (∃ place, addr.toNat.testBit place = true ∧ (place < 6 ∨ 33 < place)) ∨ 2 ^ 21 ≤ length.toNat

theorem mod_two_pow_eq_zero_iff (n width : Nat) :
    n % 2 ^ width = 0 ↔ ∀ place < width, n.testBit place = false := by
  constructor
  · intro h place hplace
    have hbit : (n % 2 ^ width).testBit place = false := by rw [h, Nat.zero_testBit]
    simpa [Nat.testBit_mod_two_pow, hplace] using hbit
  · intro h
    apply Nat.eq_of_testBit_eq
    intro place
    rw [Nat.testBit_mod_two_pow, Nat.zero_testBit]
    by_cases hplace : place < width <;> simp [hplace, h]

theorem lt_two_pow_iff (n width : Nat) :
    n < 2 ^ width ↔ ∀ place, width ≤ place → n.testBit place = false := by
  constructor
  · intro h place hplace
    exact Nat.testBit_lt_two_pow (Nat.lt_of_lt_of_le h (Nat.pow_le_pow_right (by decide) hplace))
  · exact Nat.lt_pow_two_of_testBit n

theorem addressFits_iff_testBit {addr : UInt64} :
    addressFits addr = true ↔
      ¬∃ place, addr.toNat.testBit place = true ∧ (place < 6 ∨ 33 < place) := by
  rw [addressFits_iff]
  constructor
  · rintro ⟨hmod, hlt⟩ ⟨place, hbit, hlow | hhigh⟩
    · rw [(mod_two_pow_eq_zero_iff _ 6).1 hmod place hlow] at hbit
      exact Bool.false_ne_true hbit
    · rw [(lt_two_pow_iff _ 34).1 hlt place hhigh] at hbit
      exact Bool.false_ne_true hbit
  · intro hnone
    refine ⟨(mod_two_pow_eq_zero_iff _ 6).2 ?_, (lt_two_pow_iff _ 34).2 ?_⟩
    · intro place hlow
      exact Bool.eq_false_iff.2 fun hbit => hnone ⟨place, hbit, .inl hlow⟩
    · intro place hhigh
      exact Bool.eq_false_iff.2 fun hbit => hnone ⟨place, hbit, .inr hhigh⟩

theorem maxChunkLength_lt_iff {length : UInt64} :
    maxChunkLength < length ↔ 2 ^ 21 ≤ length.toNat := by
  rw [UInt64.lt_iff_toNat_lt]
  exact Nat.succ_le_iff

/-! ## What is read back -/

/-- The descriptor reads as these five fields, and its other bits are zero. -/
structure Shows (d : Descriptor) (addr length : UInt64) (opcode attr : Int) (last : Bool) :
    Prop where
  address : d.address = addr
  length : d.length = length.toNat
  opcode : (d.opcode : Int) = opcode
  attr : (d.attr : Int) = attr
  isLast : d.isLast = last
  unused : ∀ place, 3 ≤ place → place ≤ 5 → d.raw.toNat.testBit place = false

/-- The outcome of making a descriptor of these fields: a fault if one of them overruns its place,
and else a descriptor that shows them. -/
structure Encodes (outcome : Except Fault Descriptor) (addr length : UInt64) (opcode attr : Int)
    (last : Bool) : Prop where
  fails : (∃ fault, outcome = .error fault) ↔ Overruns addr length
  shows : ∀ d, outcome = .ok d → d.Shows addr length opcode attr last

variable {addr length : UInt64} {opcode attr : Nat} {last : Bool} {d e : Descriptor}

theorem testBit_raw_pack (h : Fits opcode addr.toNat length.toNat attr) {place : Nat}
    (hlow : 3 ≤ place) (hhigh : place ≤ 5) :
    (pack opcode addr.toNat length.toNat last attr).raw.toNat.testBit place = false := by
  have ⟨hopcode, hmod, haddr, hlength, hattr⟩ := h
  rw [toNat_raw_pack h, Nat.testBit_eq_decide_div_mod_eq, decide_eq_false_iff_not]
  obtain rfl | rfl | rfl : place = 3 ∨ place = 4 ∨ place = 5 := by omega
  all_goals cases last <;> simp only [Bool.false_eq_true, ↓reduceIte] <;> omega

theorem shows_pack (h : Fits opcode addr.toNat length.toNat attr) :
    (pack opcode addr.toNat length.toNat last attr).Shows addr length opcode attr last := by
  constructor
  case address => exact UInt64.toNat_inj.1 (toNat_address_pack h)
  case length => exact length_pack h
  case opcode => rw [opcode_pack h]
  case attr => rw [attr_pack h]
  case isLast => exact isLast_pack h
  case unused => exact fun place hlow hhigh => testBit_raw_pack h hlow hhigh

theorem fits_of_withFields (hopcode : opcode < 8) (hattr : attr < 0x100)
    (h : withFields opcode attr addr length last = .ok d) :
    Fits opcode addr.toNat length.toNat attr ∧
      d = pack opcode addr.toNat length.toNat last attr := by
  obtain ⟨hmod, hlt, hlength, hd⟩ := withFields_eq_ok h
  have hle : length.toNat ≤ 2097151 := UInt64.le_iff_toNat_le.1 hlength
  exact ⟨⟨hopcode, hmod, hlt, by omega, hattr⟩, hd⟩

theorem encodes_withFields (hopcode : opcode < 8) (hattr : attr < 0x100) :
    Encodes (withFields opcode attr addr length last) addr length opcode attr last := by
  constructor
  case fails =>
    rw [Overruns, ← maxChunkLength_lt_iff]
    cases hfits : addressFits addr with
    | false =>
      have hbit : ∃ place, addr.toNat.testBit place = true ∧ (place < 6 ∨ 33 < place) := by
        rw [← Bool.not_eq_true, addressFits_iff_testBit, Classical.not_not] at hfits
        exact hfits
      simp [withFields, hfits, hbit]
    | true =>
      have hnone := addressFits_iff_testBit.1 hfits
      by_cases hlength : maxChunkLength < length <;> simp [withFields, hfits, hlength, hnone]
  case shows =>
    intro d hd
    obtain ⟨hfits, rfl⟩ := fits_of_withFields hopcode hattr hd
    exact shows_pack hfits

theorem encodes_chunk (addr length : UInt64) (last : Bool) :
    Encodes (chunk addr length last) addr length 0 0 last :=
  encodes_withFields (by decide) (by decide)

theorem encodes_head (addr length : UInt64) (opcode attr : Int32) (last : Bool) :
    Encodes (head addr length opcode attr last) addr length (opcode.toInt % 8) (attr.toInt % 256)
      last := by
  have hencodes : Encodes (head addr length opcode attr last) addr length
      ((opcode.toInt % 8).toNat : Int) ((attr.toInt % 256).toNat : Int) last :=
    encodes_withFields (by omega) (by omega)
  rwa [Int.toNat_of_nonneg (by omega), Int.toNat_of_nonneg (by omega)] at hencodes

/-! ## Equal fields, equal descriptors -/

/-- The descriptor was made from fields. -/
inductive Made (d : Descriptor) : Prop
  | chunk {addr length : UInt64} {last : Bool} (h : Descriptor.chunk addr length last = .ok d)
  | head {addr length : UInt64} {opcode attr : Int32} {last : Bool}
      (h : Descriptor.head addr length opcode attr last = .ok d)

/-- A descriptor that was made is the one packed from what it reads as. -/
theorem Made.eq_pack (h : d.Made) :
    d = pack d.opcode d.address.toNat d.length d.isLast d.attr := by
  have hpacked : ∀ {opcode attr addr length last}, opcode < 8 → attr < 0x100 →
      withFields opcode attr addr length last = .ok d →
      d = pack d.opcode d.address.toNat d.length d.isLast d.attr := by
    intro opcode attr addr length last hopcode hattr hmade
    obtain ⟨hfits, rfl⟩ := fits_of_withFields hopcode hattr hmade
    rw [opcode_pack hfits, toNat_address_pack hfits, length_pack hfits, isLast_pack hfits,
      attr_pack hfits]
  cases h with
  | chunk h => exact hpacked (by decide) (by decide) h
  | head h => exact hpacked (by omega) (by omega) h

theorem Made.eq_iff (hd : d.Made) (he : e.Made) :
    d = e ↔ d.address = e.address ∧ d.length = e.length ∧ d.opcode = e.opcode ∧ d.attr = e.attr ∧
      d.isLast = e.isLast := by
  constructor
  · rintro rfl
    exact ⟨rfl, rfl, rfl, rfl, rfl⟩
  · rintro ⟨haddress, hlength, hopcode, hattr, hlast⟩
    rw [hd.eq_pack, he.eq_pack, haddress, hlength, hopcode, hattr, hlast]

end Descriptor

/-! ## Descriptors in a FIFO -/

namespace DescriptorFifos

/-- The descriptor has entered the FIFO of this side, as it does for certain where the depths are
exact and leave room, or it was lost there; no other descriptor has, on either side. -/
structure Receives (fifos fifos' : DescriptorFifos) (side : Side) (d : Descriptor) : Prop where
  self : (fifos'.intake side).arrived = (fifos.intake side).arrived ++ [d] ∧
      (fifos'.intake side).lost = (fifos.intake side).lost ∨
    (fifos'.intake side).arrived = (fifos.intake side).arrived ∧
      (fifos'.intake side).lost = (fifos.intake side).lost ++ [d]
  room : fifos.Exact → (fifos.intake side).waiting.length < fifos.gauges.capacity.toNat →
    (fifos'.intake side).arrived = (fifos.intake side).arrived ++ [d]
  other : ∀ other, other ≠ side →
    (fifos'.intake other).arrived = (fifos.intake other).arrived ∧
      (fifos'.intake other).lost = (fifos.intake other).lost

/-- Whatever the device side does between the two writes, the descriptor that comes together from
them is the one that was handed over. -/
theorem receives_of_push (fifos : DescriptorFifos) (side : Side) (d : Descriptor) :
    ∃ fifos' events, Registers.push side d fifos = ⟨.ok (), fifos', events⟩ ∧
      fifos.Receives fifos' side d := by
  obtain ⟨_, _, hpush⟩ := push_ok side d fifos
  refine ⟨_, _, hpush, ?_⟩
  obtain ⟨low, high, hlow, hhigh, hentered⟩ := push_eq_ok hpush
  -- The latch has the low half until the high half is written.
  have hlatch : (high.intake side).latch = d.low := by rw [hhigh.latch, intake_onSide_self]
  have harrived : ∀ other, (high.intake other).arrived = (fifos.intake other).arrived := by
    intro other
    rw [hhigh.arrived, part_latched low side other Intake.arrived fun _ => rfl, hlow.arrived]
  have hlost : ∀ other, (high.intake other).lost = (fifos.intake other).lost := by
    intro other
    rw [hhigh.lost, part_latched low side other Intake.lost fun _ => rfl, hlow.lost]
  constructor
  case self =>
    rw [hentered]
    rw [intake_onSide_self, ← harrived side, ← hlost side]
    cases high.hasRoom side with
    | true =>
      rw [Intake.arrived_entered, hlatch, Descriptor.ofHalves_low_high]
      exact .inl ⟨rfl, rfl⟩
    | false =>
      refine .inr ⟨rfl, ?_⟩
      show (high.intake side).lost ++ [_] = _
      rw [hlatch, Descriptor.ofHalves_low_high]
  case room =>
    intro hexact hroom
    rw [(fills_of_push hpush hexact hroom).arrived side, Side.part_singleton, if_pos rfl]
  case other =>
    intro other hother
    rw [hentered, intake_onSide_of_ne _ _ _ hother]
    exact ⟨harrived other, hlost other⟩

end DescriptorFifos

namespace Descriptor

/-- To make a descriptor fails exactly if the address or the length overruns its field, and else the
descriptor shows both as they were, the last flag, and of the opcode and the attribute the lowest
three and eight bits; a descriptor that continues a stream shows zero for these.  Descriptors that
were made are equal if they read the same.  The halves of any word are the word; so a descriptor
that is handed to a FIFO, of either side and in whatever state, comes together there as it was. -/
theorem lossless :
    (∀ (addr length : UInt64) (last : Bool),
      Encodes (chunk addr length last) addr length 0 0 last) ∧
    (∀ (addr length : UInt64) (opcode attr : Int32) (last : Bool),
      Encodes (head addr length opcode attr last) addr length (opcode.toInt % 8)
        (attr.toInt % 256) last) ∧
    (∀ d e : Descriptor, d.Made → e.Made →
      (d = e ↔ d.address = e.address ∧ d.length = e.length ∧ d.opcode = e.opcode ∧
        d.attr = e.attr ∧ d.isLast = e.isLast)) ∧
    (∀ d : Descriptor, d.high.toNat * 2 ^ 32 + d.low.toNat = d.raw.toNat) ∧
    (∀ (fifos : DescriptorFifos) (side : Side) (d : Descriptor),
      ∃ fifos' events, Registers.push side d fifos = ⟨.ok (), fifos', events⟩ ∧
        fifos.Receives fifos' side d) :=
  ⟨encodes_chunk, encodes_head, fun _ _ hd he => hd.eq_iff he, toNat_high_low,
    DescriptorFifos.receives_of_push⟩

/-- Of the opcode -1 and the attribute -1 all bits of the two fields are ones; the fields between
them stay as they are, and tell the descriptor from another head that differs in the last flag
only. -/
theorem lossless_of_negative :
    (∃ d, head 0x1040 0x40 (-1) (-1) true = .ok d ∧ d.Shows 0x1040 0x40 7 255 true) ∧
    (∃ fault, head 0x1040 0x200000 (-1) (-1) true = .error fault) ∧
    (⟨0xff80_0100_0000_1047⟩ : Descriptor) ≠ ⟨0xff00_0100_0000_1047⟩ := by
  have hlast : head 0x1040 0x40 (-1) (-1) true = .ok ⟨0xff80_0100_0000_1047⟩ := rfl
  have hmore : head 0x1040 0x40 (-1) (-1) false = .ok ⟨0xff00_0100_0000_1047⟩ := rfl
  obtain ⟨-, hhead, heq, -⟩ := lossless
  refine ⟨⟨_, hlast, ?_⟩, ?_, ?_⟩
  · exact (hhead 0x1040 0x40 (-1) (-1) true).shows _ hlast
  · exact (hhead 0x1040 0x200000 (-1) (-1) true).fails.2 (.inr (by decide))
  · rw [Ne, heq _ _ (.head hlast) (.head hmore)]
    decide

end Descriptor

end DmaQueue

/-
  DmaQueue.Proofs.Descriptor.Units

  What the accelerator makes of a stream, working from the first descriptor of a
  side alone.  Of the attribute only the two chaining bits count, and they are
  among the eight that a descriptor carries.  Of the opcode a descriptor carries
  three bits, so the accelerator selects the unit that was asked for exactly if
  the opcode is at most 7 (`units_of_admission`).
-/
import DmaQueue.Proofs.Act.Failing
import DmaQueue.Proofs.Descriptor.Fields
import DmaQueue.Proofs.Request.Admission
import DmaQueue.Proofs.Request.Pipeline
import DmaQueue.Transfer.Basic

namespace DmaQueue

/-! ## Chaining bits -/

namespace Request

/-- The eight bits of the attribute that a descriptor carries, as a word again. -/
def lowByte (attr : Int32) : Int32 :=
  Int32.ofNat (attr.toInt % 256).toNat

theorem toInt_lowByte (attr : Int32) : (lowByte attr).toInt = attr.toInt % 256 := by
  have hlt : (attr.toInt % 256).toNat < 2 ^ 31 := by omega
  rw [lowByte, Int32.toInt_ofNat_of_lt hlt]
  omega

theorem bit_lowByte (attr : Int32) {place : Nat} (h : place < 2) :
    bit (lowByte attr) place = bit attr place := by
  have hbit : (attr.toInt % 256) >>> place % 2 = attr.toInt >>> place % 2 := by
    rw [Int.shiftRight_eq_div_pow, Int.shiftRight_eq_div_pow]
    obtain rfl | rfl : place = 0 ∨ place = 1 := by omega
    · omega
    · omega
  rw [bit, bit, toInt_lowByte, hbit]

/-- No other bits of the attribute have a part in the number of bytes that come out. -/
theorem outputLength_lowByte (opcode attr : Int32) (input : UInt64) :
    outputLength opcode (lowByte attr) input = outputLength opcode attr input :=
  outputLength_congr (fun _ hplace => bit_lowByte attr hplace) opcode input

end Request

/-! ## Reading the first descriptor -/

namespace Descriptor

/-- The number of bytes that the accelerator makes of `input` bytes, going by the descriptor. -/
def outputLength (d : Descriptor) (input : UInt64) : Option UInt64 :=
  Request.outputLength (Int32.ofNat d.opcode) (Int32.ofNat d.attr) input

variable {addr length : UInt64} {opcode attr : Int32} {last : Bool} {d : Descriptor}

theorem fields_of_head (h : head addr length opcode attr last = .ok d) :
    d.opcode = (opcode.toInt % 8).toNat ∧ d.attr = (attr.toInt % 256).toNat := by
  obtain ⟨hmod, hlt, hlength, rfl⟩ := withFields_eq_ok h
  have hlengthNat : length.toNat ≤ 2097151 := UInt64.le_iff_toNat_le.1 hlength
  have hfits : Fits (opcode.toInt % 8).toNat addr.toNat length.toNat (attr.toInt % 256).toNat :=
    ⟨by omega, hmod, hlt, by omega, by omega⟩
  exact ⟨opcode_pack hfits, attr_pack hfits⟩

/-- The three bits are the opcode exactly if it is at most 7. -/
theorem opcode_head_iff (h : head addr length opcode attr last = .ok d) (hopcode : 0 ≤ opcode) :
    (d.opcode : Int) = opcode.toInt ↔ opcode ≤ 7 := by
  have hpos : 0 ≤ opcode.toInt := Int32.le_iff_toInt_le.1 hopcode
  have hseven : opcode ≤ 7 ↔ opcode.toInt ≤ 7 := Int32.le_iff_toInt_le
  rw [(fields_of_head h).1, hseven]
  omega

theorem outputLength_head (h : head addr length opcode attr last = .ok d) (hopcode : 0 ≤ opcode)
    (hseven : opcode ≤ 7) (input : UInt64) :
    d.outputLength input = Request.outputLength opcode attr input := by
  have hsame := (opcode_head_iff h hopcode).2 hseven
  have hunit : Int32.ofNat d.opcode = opcode := by
    have hlt : d.opcode < 2 ^ 31 := by
      rw [(fields_of_head h).1]
      omega
    rw [← Int32.toInt_inj, Int32.toInt_ofNat_of_lt hlt, hsame]
  rw [outputLength, hunit, (fields_of_head h).2]
  exact Request.outputLength_lowByte opcode attr input

end Descriptor

/-! ## Admitted requests -/

/-- The descriptor names the function unit of the request exactly if the opcode has only three bits,
and then the accelerator makes as many bytes as the destination range has. -/
def Descriptor.Agrees (d : Descriptor) (request : Request) (admitted : Admitted) : Prop :=
  ((d.opcode : Int) = request.opcode.toInt ↔ request.opcode ≤ 7) ∧
    (request.opcode ≤ 7 → d.outputLength request.length = some admitted.outputLength)

variable {request : Request} {config : Config} {admitted : Admitted}

theorem Request.Admits.agrees (hadmits : request.Admits config admitted) {addr length : UInt64}
    {last : Bool} {d : Descriptor}
    (h : Descriptor.head addr length request.opcode request.attr last = .ok d) :
    d.Agrees request admitted := by
  refine ⟨Descriptor.opcode_head_iff h hadmits.opcode.1, fun hseven => ?_⟩
  rw [Descriptor.outputLength_head h hadmits.opcode.1 hseven]
  exact hadmits.output

/-- Let a sound configuration let a request in.  Every chunk address and length in range has a first
descriptor, and that serves the request; so does the first descriptor that each side of the transfer
begins with, on whatever pages.  With at most seven function units no opcode is above 7. -/
theorem units_of_admission (hflaw : config.flaw? = none)
    (hadmitted : request.admission config = .ok (.ok admitted)) :
    (∀ (addr length : UInt64) (last : Bool), addr.toNat % 64 = 0 →
      addr.toNat < 0x4_0000_0000 → length ≤ maxChunkLength →
      ∃ d, Descriptor.head addr length request.opcode request.attr last = .ok d ∧
        d.Agrees request admitted) ∧
    (∀ (source dest : List PinnedPage) (side : Side) (d : Descriptor),
      (Transfer.ofAdmitted request admitted source dest).descriptor config.pageSize side 0 = .ok d →
      d.Agrees request admitted) ∧
    (config.functionUnits ≤ 7 → request.opcode ≤ 7) := by
  have hadmits := Request.admits_of_admission (Config.sound_of_flaw? hflaw) hadmitted
  refine ⟨?_, ?_, ?_⟩
  · intro addr length last hmod hlt hlength
    have hhead : Descriptor.head addr length request.opcode request.attr last = _ :=
      Descriptor.withFields_of_fits hmod hlt hlength
    exact ⟨_, hhead, hadmits.agrees hhead⟩
  · intro source dest side d h
    generalize ht : Transfer.ofAdmitted request admitted source dest = t at h
    have hrequest : t.request = request := by rw [← ht]; rfl
    unfold Transfer.descriptor at h
    cases hchunk : (t.range side).chunk 0 config.pageSize with
    | error fault => simp [hchunk, bind, Except.bind] at h
    | ok piece =>
      simp only [hchunk, bind, Except.bind, ↓reduceIte, hrequest] at h
      exact hadmits.agrees h
  · intro hunits
    exact Int32.le_trans hadmits.opcode.2 hunits

/-- A stream that is passed on and then halved, with every bit of the attribute set. -/
theorem units_of_chained :
    let request : Request :=
      { source := 0x12000, dest := 0x10000, length := 0x80, opcode := 2, attr := -1 }
    ∃ d, Descriptor.head 0x92000 0x80 request.opcode request.attr true = .ok d ∧
      (d.opcode : Int) = request.opcode.toInt ∧ d.outputLength request.length = some 0x40 := by
  intro request
  have hadmitted : request.admission {} = .ok (.ok
      { outputLength := 0x40
        source := ⟨0x12000, 1, 0, 0x80, 0x80⟩
        dest := ⟨0x10000, 1, 0, 0x40, 0x40⟩ }) := by
    decide
  obtain ⟨hhead, -, hunits⟩ := units_of_admission rfl hadmitted
  have hseven := hunits (by decide)
  obtain ⟨d, hd, hopcode, houtput⟩ :=
    hhead 0x92000 0x80 true (by decide) (by decide) (by decide)
  exact ⟨d, hd, hopcode.2 hseven, houtput hseven⟩

/-- With nine function units, a request for unit 9 is let in for as many bytes as it has; but its
descriptor names unit 1, which makes twice as many. -/
theorem unit_nine_doubles :
    let config : Config := { functionUnits := 9 }
    let request : Request :=
      { source := 0x1000, dest := 0x2000, length := 0x40, opcode := 9, attr := 0 }
    config.flaw? = none ∧
      (∃ admitted, request.admission config = .ok (.ok admitted) ∧ admitted.outputLength = 0x40) ∧
      ∃ d, Descriptor.head 0x1000 0x40 request.opcode request.attr true = .ok d ∧
        d.opcode = 1 ∧ d.outputLength request.length = some 0x80 := by
  intro config request
  refine ⟨by decide, ⟨⟨0x40, ⟨0x1000, 1, 0, 0x40, 0x40⟩, ⟨0x2000, 1, 0, 0x40, 0x40⟩⟩, ?_, rfl⟩,
    .pack 1 0x1000 0x40 true 0, ?_⟩
  · decide
  · decide

end DmaQueue

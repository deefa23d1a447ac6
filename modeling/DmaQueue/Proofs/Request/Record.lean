/-
  DmaQueue.Proofs.Request.Record

  The record of a request says all of it and nothing else: requests and records
  of 32 bytes correspond one to one (`record_bijective`).  Every byte of a record
  belongs to one field, and a field is what its own bytes say
  (`same_ofRecord_iff`).
-/
import DmaQueue.Request.Basic
import Mathlib.Logic.ExistsUnique
import Mathlib.Logic.Function.Basic
import Mathlib.Tactic.ByContra
import Mathlib.Tactic.SplitIfs

namespace DmaQueue.Request

open LittleEndian

/-! ## Fields and their bytes -/

/-- The fields of a request, in the order in which the record has them. -/
inductive Field where
  | source | dest | length | opcode | attr
  deriving DecidableEq, Repr

namespace Field

/-- The position of the field's first byte. -/
def start : Field → Nat
  | source => 0
  | dest => 8
  | length => 16
  | opcode => 24
  | attr => 28

/-- How many bytes the field has. -/
def width : Field → Nat
  | source | dest | length => 8
  | opcode | attr => 4

/-- The byte at position `i` belongs to the field. -/
def Owns (field : Field) (i : Nat) : Prop :=
  field.start ≤ i ∧ i < field.start + field.width

instance (field : Field) (i : Nat) : Decidable (field.Owns i) :=
  inferInstanceAs (Decidable (_ ∧ _))

/-- The bytes of the field in a record. -/
def window (field : Field) (bytes : List UInt8) : List UInt8 :=
  (bytes.drop field.start).take field.width

/-- The field of a request as a number; a signed word counts as the unsigned one with its bits. -/
def bits : Field → Request → Nat
  | source, r => r.source.toNat
  | dest, r => r.dest.toNat
  | length, r => r.length.toNat
  | opcode, r => r.opcode.toUInt32.toNat
  | attr, r => r.attr.toUInt32.toNat

/-- The two requests agree in the field. -/
def Same : Field → Request → Request → Prop
  | source, r, r' => r.source = r'.source
  | dest, r, r' => r.dest = r'.dest
  | length, r, r' => r.length = r'.length
  | opcode, r, r' => r.opcode = r'.opcode
  | attr, r, r' => r.attr = r'.attr

variable {field : Field} {bytes bytes' : List UInt8} {i : Nat}

/-- The field that the byte at position `i` of a record belongs to. -/
def owner (i : Nat) : Field :=
  if i < 8 then source else if i < 16 then dest else if i < 24 then length
  else if i < 28 then opcode else attr

/-- The fields leave no byte of a record out, and share none. -/
theorem owns_iff (hi : i < recordSize) : field.Owns i ↔ field = owner i := by
  unfold recordSize at hi
  unfold owner
  cases field with
  | source | dest | length | opcode | attr =>
    simp only [Owns, start, width]
    split_ifs <;> simp <;> omega

theorem end_le_recordSize (field : Field) : field.start + field.width ≤ recordSize := by
  cases field <;> decide

theorem length_window (field : Field) (h : bytes.length = recordSize) :
    (field.window bytes).length = field.width := by
  have hend := field.end_le_recordSize
  rw [window, List.length_take, List.length_drop]
  omega

theorem getElem?_window (h : field.Owns i) :
    (field.window bytes)[i - field.start]? = bytes[i]? := by
  obtain ⟨hstart, hend⟩ := h
  rw [window, List.getElem?_take_of_lt (by omega), List.getElem?_drop, Nat.add_sub_cancel' hstart]

theorem window_eq_iff (h : bytes.length = recordSize) (h' : bytes'.length = recordSize) :
    field.window bytes = field.window bytes' ↔ ∀ i, field.Owns i → bytes[i]? = bytes'[i]? := by
  constructor
  · intro hwindow i hi
    rw [← getElem?_window hi, hwindow, getElem?_window hi]
  · intro hbytes
    apply List.ext_getElem?
    intro i
    by_cases hi : i < field.width
    · have howns : field.Owns (field.start + i) := ⟨Nat.le_add_right .., by omega⟩
      have hbyte := hbytes _ howns
      rwa [← getElem?_window howns, ← getElem?_window howns, Nat.add_sub_cancel_left] at hbyte
    · rw [List.getElem?_eq_none (by rw [length_window field h]; omega),
        List.getElem?_eq_none (by rw [length_window field h']; omega)]

/-- Records with the same bytes in every field are the same record. -/
theorem ext_window (h : bytes.length = recordSize) (h' : bytes'.length = recordSize)
    (hwindow : ∀ field : Field, field.window bytes = field.window bytes') : bytes = bytes' := by
  apply List.ext_getElem?
  intro i
  by_cases hi : i < recordSize
  · exact (window_eq_iff h h').1 (hwindow (owner i)) i ((owns_iff hi).2 rfl)
  · rw [List.getElem?_eq_none (by omega), List.getElem?_eq_none (by omega)]

theorem same_iff {r r' : Request} : field.Same r r' ↔ field.bits r = field.bits r' := by
  have hsigned : Function.Injective Int32.toUInt32 :=
    Function.LeftInverse.injective Int32.toInt32_toUInt32
  cases field with
  | source | dest | length => exact UInt64.toNat_inj.symm
  | opcode | attr => exact hsigned.eq_iff.symm.trans UInt32.toNat_inj.symm

theorem bits_lt (field : Field) (r : Request) : field.bits r < capacity field.width := by
  cases field with
  | source | dest | length => exact UInt64.toNat_lt_size _
  | opcode | attr => exact UInt32.toNat_lt_size _

end Field

/-- Requests that agree in every field are the same request. -/
theorem eq_of_same {r r' : Request} (h : ∀ field : Field, field.Same r r') : r = r' := by
  obtain ⟨_, _, _, _, _⟩ := r
  obtain ⟨_, _, _, _, _⟩ := r'
  rw [Request.mk.injEq]
  exact ⟨h .source, h .dest, h .length, h .opcode, h .attr⟩

/-! ## Writing and reading -/

/-- What stands between other bytes is found by dropping those before it. -/
theorem take_drop_append {before data after : List UInt8} {start width : Nat}
    (hstart : before.length = start) (hwidth : data.length = width) :
    ((before ++ (data ++ after)).drop start).take width = data := by
  rw [← hstart, ← hwidth, List.drop_left, List.take_left]

/-- The written fields stand in the record one after the other. -/
theorem exists_toRecord_eq (field : Field) (r : Request) :
    ∃ before after : List UInt8, before.length = field.start ∧
      r.toRecord = before ++ (encode field.width (field.bits r) ++ after) := by
  have hlength := length_encode
  cases field with
  | source =>
    refine ⟨[], encode 8 r.dest.toNat ++ encode 8 r.length.toNat ++
      encode 4 r.opcode.toUInt32.toNat ++ encode 4 r.attr.toUInt32.toNat, rfl, ?_⟩
    simp only [toRecord, List.append_assoc, List.nil_append, Field.width, Field.bits]
  | dest =>
    refine ⟨encode 8 r.source.toNat, encode 8 r.length.toNat ++
      encode 4 r.opcode.toUInt32.toNat ++ encode 4 r.attr.toUInt32.toNat, hlength .., ?_⟩
    simp only [toRecord, List.append_assoc, Field.width, Field.bits]
  | length =>
    refine ⟨encode 8 r.source.toNat ++ encode 8 r.dest.toNat,
      encode 4 r.opcode.toUInt32.toNat ++ encode 4 r.attr.toUInt32.toNat, ?_, ?_⟩
    · simp only [List.length_append, hlength, Field.start]
    · simp only [toRecord, List.append_assoc, Field.width, Field.bits]
  | opcode =>
    refine ⟨encode 8 r.source.toNat ++ encode 8 r.dest.toNat ++ encode 8 r.length.toNat,
      encode 4 r.attr.toUInt32.toNat, ?_, ?_⟩
    · simp only [List.length_append, hlength, Field.start]
    · simp only [toRecord, List.append_assoc, Field.width, Field.bits]
  | attr =>
    -- Nothing stands behind the last field.
    refine ⟨encode 8 r.source.toNat ++ encode 8 r.dest.toNat ++ encode 8 r.length.toNat ++
      encode 4 r.opcode.toUInt32.toNat, [], ?_, ?_⟩
    · simp only [List.length_append, hlength, Field.start]
    · simp only [toRecord, List.append_nil, Field.width, Field.bits]

/-- The bytes of a field are the written form of its number. -/
theorem window_toRecord (field : Field) (r : Request) :
    field.window r.toRecord = encode field.width (field.bits r) := by
  obtain ⟨before, after, hbefore, hrecord⟩ := exists_toRecord_eq field r
  rw [Field.window, hrecord]
  exact take_drop_append hbefore (length_encode ..)

variable {bytes bytes' : List UInt8}

/-- A field is read as the number that its bytes stand for. -/
theorem bits_ofRecord (field : Field) (h : bytes.length = recordSize) :
    field.bits (ofRecord bytes) = decode (field.window bytes) := by
  have hfits := decode_lt (field.window bytes)
  rw [field.length_window h] at hfits
  cases field with
  | source | dest | length => exact UInt64.toNat_ofNat_of_lt' hfits
  | opcode | attr =>
    rw [Field.bits, ofRecord, UInt32.toUInt32_toInt32]
    exact UInt32.toNat_ofNat_of_lt' hfits

/-- A request is read back from its record. -/
theorem ofRecord_toRecord (r : Request) : ofRecord r.toRecord = r := by
  refine eq_of_same fun field => Field.same_iff.2 ?_
  rw [bits_ofRecord field r.length_toRecord, window_toRecord, decode_encode,
    Nat.mod_eq_of_lt (field.bits_lt r)]

/-- A record is written again from the request that is read from it. -/
theorem toRecord_ofRecord (h : bytes.length = recordSize) : (ofRecord bytes).toRecord = bytes := by
  refine Field.ext_window (length_toRecord _) h fun field => ?_
  rw [window_toRecord, bits_ofRecord field h, ← field.length_window h, encode_decode]

/-- The requests of two records agree in a field exactly if the records agree in the bytes that
belong to it. -/
theorem same_ofRecord_iff (field : Field) (h : bytes.length = recordSize)
    (h' : bytes'.length = recordSize) :
    field.Same (ofRecord bytes) (ofRecord bytes') ↔
      ∀ i, field.Owns i → bytes[i]? = bytes'[i]? := by
  rw [← Field.window_eq_iff h h']
  constructor
  · intro hsame
    rw [← toRecord_ofRecord h, ← toRecord_ofRecord h', window_toRecord, window_toRecord,
      Field.same_iff.1 hsame]
  · intro hwindow
    rw [Field.same_iff, bits_ofRecord field h, bits_ofRecord field h', hwindow]

/-! ## One to one -/

/-- A byte of a record that changes, changes the field that it belongs to and no other. -/
theorem same_set_iff (field : Field) (h : bytes.length = recordSize) {i : Nat}
    (hi : i < recordSize) {byte : UInt8} (hbyte : bytes[i]? ≠ some byte) :
    field.Same (ofRecord (bytes.set i byte)) (ofRecord bytes) ↔ ¬field.Owns i := by
  have hset : (bytes.set i byte)[i]? = some byte := List.getElem?_set_self (h ▸ hi)
  rw [same_ofRecord_iff field (by rw [List.length_set, h]) h]
  constructor
  · intro hbytes howns
    exact hbyte ((hbytes i howns).symm.trans hset)
  · intro howns j hj
    have hne : i ≠ j := by
      rintro rfl
      exact howns hj
    exact List.getElem?_set_ne hne

/-- Requests that agree in all fields but one have records that differ in the bytes of that field
only. -/
theorem owns_of_getElem?_ne {field : Field} {r r' : Request}
    (hsame : ∀ other : Field, other ≠ field → other.Same r r') {i : Nat}
    (hne : r.toRecord[i]? ≠ r'.toRecord[i]?) : field.Owns i := by
  have hi : i < recordSize := by
    by_contra hout
    rw [List.getElem?_eq_none (by rw [length_toRecord]; omega),
      List.getElem?_eq_none (by rw [length_toRecord]; omega)] at hne
    exact hne rfl
  -- The field that has the byte is not one of those in which the requests agree.
  rw [Field.owns_iff hi]
  by_contra hother
  have howner := hsame (Field.owner i) (Ne.symm hother)
  rw [← ofRecord_toRecord r, ← ofRecord_toRecord r',
    same_ofRecord_iff _ r.length_toRecord r'.length_toRecord] at howner
  exact hne (howner i ((Field.owns_iff hi).2 rfl))

/-- A request is read back from its record of 32 bytes, and any 32 bytes are the record of the
request that is read from them; so different requests have different records.  Every byte of a
record belongs to exactly one field.  If the byte changes, this field of the request changes and no
other; and if one field of the request changes, no byte changes that does not belong to it. -/
theorem record_bijective :
    (∀ r : Request, r.toRecord.length = recordSize ∧ ofRecord r.toRecord = r) ∧
    (∀ bytes : List UInt8, bytes.length = recordSize → (ofRecord bytes).toRecord = bytes) ∧
    Function.Injective toRecord ∧
    (∀ i < recordSize, ∃! field : Field, field.Owns i) ∧
    (∀ (bytes : List UInt8) (i : Nat) (byte : UInt8), bytes.length = recordSize → i < recordSize →
      bytes[i]? ≠ some byte →
        ∀ field : Field, field.Same (ofRecord (bytes.set i byte)) (ofRecord bytes) ↔
          ¬field.Owns i) ∧
    (∀ (field : Field) (r r' : Request), (∀ other : Field, other ≠ field → other.Same r r') →
      ∀ i, r.toRecord[i]? ≠ r'.toRecord[i]? → field.Owns i) := by
  refine ⟨fun r => ⟨r.length_toRecord, r.ofRecord_toRecord⟩, fun bytes h => toRecord_ofRecord h,
    Function.LeftInverse.injective ofRecord_toRecord, fun i hi => ?_,
    fun bytes i byte h hi hbyte field => same_set_iff field h hi hbyte,
    fun field r r' hsame i hne => owns_of_getElem?_ne hsame hne⟩
  exact ⟨Field.owner i, (Field.owns_iff hi).2 rfl, fun other howns => (Field.owns_iff hi).1 howns⟩

/-- Bytes that are all ones: the signed fields read -1.  Without its highest bit the record has the
largest positive attribute, and is the same elsewhere. -/
theorem record_bijective_of_ones :
    let ones := List.replicate 32 (0xff : UInt8)
    ofRecord ones = ⟨0xffff_ffff_ffff_ffff, 0xffff_ffff_ffff_ffff, 0xffff_ffff_ffff_ffff, -1, -1⟩ ∧
      (ofRecord ones).toRecord = ones ∧
      (ofRecord (ones.set 31 0x7f)).attr = 0x7fff_ffff ∧
      ∀ field : Field, field.Same (ofRecord (ones.set 31 0x7f)) (ofRecord ones) ↔
        ¬field.Owns 31 := by
  obtain ⟨-, hwritten, -, -, hbyte, -⟩ := record_bijective
  exact ⟨by decide +kernel, hwritten _ (by decide), by decide +kernel,
    hbyte _ 31 0x7f (by decide) (by decide) (by decide)⟩

end DmaQueue.Request

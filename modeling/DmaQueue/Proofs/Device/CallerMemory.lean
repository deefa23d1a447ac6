/-
  DmaQueue.Proofs.Device.CallerMemory

  The memory of the caller, address by address.  An access is good exactly if
  all of its bytes are inside the memory; a write then changes the bytes that it
  covers and no others.
-/
import DmaQueue.Device.CallerMemory

namespace DmaQueue.CallerMemory

/-- Every byte of the access is inside the memory. -/
def Inside (memory : CallerMemory) (addr : UInt64) (length : Nat) : Prop :=
  memory.base.toNat ≤ addr.toNat ∧
    addr.toNat + length ≤ memory.base.toNat + memory.bytes.length

instance (memory : CallerMemory) (addr : UInt64) (length : Nat) :
    Decidable (memory.Inside addr length) :=
  inferInstanceAs (Decidable (_ ∧ _))

/-- The byte at an address, if that is inside. -/
def byteAt (memory : CallerMemory) (address : Nat) : Option UInt8 :=
  if memory.base.toNat ≤ address then memory.bytes[address - memory.base.toNat]? else none

/-- The bytes of `length` addresses from `addr` on. -/
def window (memory : CallerMemory) (addr : UInt64) (length : Nat) : List UInt8 :=
  (memory.bytes.drop (addr.toNat - memory.base.toNat)).take length

/-- The memory with the data at the addresses from `addr` on: it lies where it lay, the bytes there
are those of the data, and all others are as they were. -/
structure Stores (memory : CallerMemory) (addr : UInt64) (data : List UInt8)
    (changed : CallerMemory) : Prop where
  base : changed.base = memory.base
  size : changed.bytes.length = memory.bytes.length
  stored : ∀ i < data.length, changed.byteAt (addr.toNat + i) = data[i]?
  kept : ∀ address, address < addr.toNat ∨ addr.toNat + data.length ≤ address →
    changed.byteAt address = memory.byteAt address

variable {memory changed : CallerMemory} {addr : UInt64} {length : Nat} {data : List UInt8}

theorem position_of_inside (h : memory.Inside addr length) :
    memory.position addr length = .ok (addr.toNat - memory.base.toNat) := by
  obtain ⟨hbase, hend⟩ := h
  exact position_eq_ok_iff.2 ⟨by omega, by omega⟩

theorem position_of_not_inside (h : ¬memory.Inside addr length) :
    memory.position addr length = .error (.badAddress addr) := by
  unfold position
  rw [if_neg]
  rintro ⟨hbase, hend⟩
  rw [UInt64.le_iff_toNat_le] at hbase
  exact h ⟨hbase, by omega⟩

theorem read_of_inside (h : memory.Inside addr length) :
    memory.read addr length = .ok (memory.window addr length) := by
  rw [read, position_of_inside h]
  rfl

theorem read_of_not_inside (h : ¬memory.Inside addr length) :
    memory.read addr length = .error (.badAddress addr) := by
  rw [read, position_of_not_inside h]
  rfl

theorem write_of_not_inside (h : ¬memory.Inside addr data.length) :
    memory.write addr data = .error (.badAddress addr) := by
  rw [write, position_of_not_inside h]
  rfl

theorem stores_of_write (h : memory.write addr data = .ok changed) :
    memory.Stores addr data changed := by
  have hsize := length_bytes_of_write h
  obtain ⟨start, hstart, rfl⟩ := write_eq_ok_iff.1 h
  obtain ⟨hbase, hfits⟩ := position_eq_ok_iff.1 hstart
  -- What stands before the data are the first `start` bytes.
  have hbefore : (memory.bytes.take start).length = start := by
    rw [List.length_take]
    omega
  constructor
  case base => rfl
  case size => exact hsize
  case stored =>
    intro i hi
    have hle : memory.base.toNat ≤ addr.toNat + i := by omega
    have hposition : addr.toNat + i - memory.base.toNat = start + i := by omega
    simp only [byteAt, hle, hposition, ↓reduceIte]
    rw [List.append_assoc, List.getElem?_append_right (by omega), hbefore,
      Nat.add_sub_cancel_left, List.getElem?_append_left hi]
  case kept =>
    intro address haddress
    simp only [byteAt]
    split
    case isFalse => rfl
    case isTrue hle =>
      rcases haddress with hbelow | habove
      · rw [List.append_assoc, List.getElem?_append_left (by omega), List.getElem?_take_of_lt]
        omega
      · rw [List.getElem?_append_right (by rw [List.length_append]; omega), List.getElem?_drop,
          List.length_append, hbefore]
        congr 1
        omega

theorem write_of_inside (h : memory.Inside addr data.length) :
    ∃ changed, memory.write addr data = .ok changed ∧ memory.Stores addr data changed := by
  have hchanged := write_eq_ok_iff.2 ⟨_, position_of_inside h, rfl⟩
  exact ⟨_, hchanged, stores_of_write hchanged⟩

end DmaQueue.CallerMemory

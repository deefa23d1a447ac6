/-
  DmaQueue.Device.CallerMemory

  The memory of the caller of a control command: bytes from a base address on.
  An access that is not wholly inside fails and changes nothing; one that is
  succeeds (`position_eq_ok_iff`), and what was written is read back
  (`read_of_write`).
-/
import DmaQueue.Failure

namespace DmaQueue

/-- Bytes at addresses from `base` on. -/
structure CallerMemory where
  /-- The address of the first byte. -/
  base : UInt64
  /-- The bytes. -/
  bytes : List UInt8
  deriving DecidableEq, Repr

namespace CallerMemory

/-- The position of `addr` among the bytes, if `length` bytes from there on are inside. -/
def position (memory : CallerMemory) (addr : UInt64) (length : Nat) : Except Failure Nat :=
  if memory.base ≤ addr ∧ addr.toNat - memory.base.toNat + length ≤ memory.bytes.length then
    .ok (addr.toNat - memory.base.toNat)
  else
    .error (.badAddress addr)

/-- The `length` bytes from `addr` on. -/
def read (memory : CallerMemory) (addr : UInt64) (length : Nat) :
    Except Failure (List UInt8) := do
  let start ← memory.position addr length
  return (memory.bytes.drop start).take length

/-- The memory with `data` from `addr` on. -/
def write (memory : CallerMemory) (addr : UInt64) (data : List UInt8) :
    Except Failure CallerMemory := do
  let start ← memory.position addr data.length
  let bytes := memory.bytes.take start ++ data ++ memory.bytes.drop (start + data.length)
  return { memory with bytes }

/-! ## What an access reaches -/

theorem position_eq_ok_iff {memory : CallerMemory} {addr : UInt64} {length start : Nat} :
    memory.position addr length = .ok start ↔
      memory.base.toNat + start = addr.toNat ∧ start + length ≤ memory.bytes.length := by
  unfold position
  split
  · rename_i h
    have hbase : memory.base.toNat ≤ addr.toNat := UInt64.le_iff_toNat_le.1 h.1
    rw [Except.ok.injEq]
    omega
  · rename_i h
    rw [UInt64.le_iff_toNat_le] at h
    simp only [reduceCtorEq, false_iff]
    omega

theorem write_eq_ok_iff {memory changed : CallerMemory} {addr : UInt64} {data : List UInt8} :
    memory.write addr data = .ok changed ↔
      ∃ start, memory.position addr data.length = .ok start ∧
        changed = { memory with
          bytes :=
            memory.bytes.take start ++ data ++ memory.bytes.drop (start + data.length) } := by
  unfold write
  cases memory.position addr data.length with
  | error failure => simp [bind, Except.bind]
  | ok start => simp [bind, Except.bind, pure, Except.pure, eq_comm]

/-- The memory keeps its size. -/
theorem length_bytes_of_write {memory changed : CallerMemory} {addr : UInt64} {data : List UInt8}
    (h : memory.write addr data = .ok changed) : changed.bytes.length = memory.bytes.length := by
  obtain ⟨start, hstart, rfl⟩ := write_eq_ok_iff.1 h
  obtain ⟨-, hfits⟩ := position_eq_ok_iff.1 hstart
  simp only [List.length_append, List.length_take, List.length_drop]
  omega

/-- What was written is read back. -/
theorem read_of_write {memory changed : CallerMemory} {addr : UInt64} {data : List UInt8}
    (h : memory.write addr data = .ok changed) : changed.read addr data.length = .ok data := by
  have hsize := length_bytes_of_write h
  obtain ⟨start, hstart, hchanged⟩ := write_eq_ok_iff.1 h
  obtain ⟨hbase, hfits⟩ := position_eq_ok_iff.1 hstart
  have hread : changed.position addr data.length = .ok start := by
    refine position_eq_ok_iff.2 ⟨?_, by omega⟩
    rw [hchanged]
    exact hbase
  -- The written bytes stand right behind the first `start` bytes of the old memory.
  have htake : (memory.bytes.take start).length = start := by
    rw [List.length_take]
    omega
  unfold read
  rw [hread]
  simp [hchanged, bind, Except.bind, pure, Except.pure, List.append_assoc, htake]

/-! ## Integers and requests -/

/-- The signed 32-bit integer at `addr`. -/
def readInt (memory : CallerMemory) (addr : UInt64) : Except Failure Int32 := do
  let bytes ← memory.read addr 4
  return (UInt32.ofNat (LittleEndian.decode bytes)).toInt32

/-- The memory with a signed 32-bit integer at `addr`. -/
def writeInt (memory : CallerMemory) (addr : UInt64) (value : Int32) :
    Except Failure CallerMemory :=
  memory.write addr (LittleEndian.encode 4 value.toUInt32.toNat)

/-- The request whose record is at `addr`. -/
def readRequest (memory : CallerMemory) (addr : UInt64) : Except Failure Request := do
  let bytes ← memory.read addr Request.recordSize
  return .ofRecord bytes

/-- The memory with the record of a request at `addr`. -/
def writeRequest (memory : CallerMemory) (addr : UInt64) (request : Request) :
    Except Failure CallerMemory :=
  memory.write addr request.toRecord

end CallerMemory

end DmaQueue

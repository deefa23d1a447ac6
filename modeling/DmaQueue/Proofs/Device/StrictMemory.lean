/-
  DmaQueue.Proofs.Device.StrictMemory

  The memory of the caller once more, with every way in which an access could go
  wrong left in it: positions are computed with words, bytes are cut out of the
  memory and put into it only where that part exists, and only as many as there
  is room for.  None of these faults can happen, and what comes out is the same
  (`readStrict_eq`, `writeStrict_eq`).
-/
import DmaQueue.Proofs.Device.CallerMemory
import DmaQueue.Proofs.Page.Granule

namespace DmaQueue.CallerMemory

/-! ## Parts of a byte list -/

/-- The bytes from position `start` to position `stop`; a fault if the list has no such part. -/
def cut (bytes : List UInt8) (start stop : Nat) : Except Fault (List UInt8) :=
  if start ≤ stop ∧ stop ≤ bytes.length then
    .ok ((bytes.drop start).take (stop - start))
  else
    .error .outOfRange

/-- A buffer of `size` bytes filled with the bytes; a fault if they are more or fewer. -/
def fill (size : Nat) (bytes : List UInt8) : Except Fault (List UInt8) :=
  if bytes.length = size then .ok bytes else .error .outOfRange

/-- The bytes with the data from position `start` to position `stop`; a fault if the list has no
such part, or if the data are more or fewer. -/
def patch (bytes : List UInt8) (start stop : Nat) (data : List UInt8) :
    Except Fault (List UInt8) := do
  let part ← cut bytes start stop
  let filled ← fill part.length data
  return bytes.take start ++ filled ++ bytes.drop stop

variable {bytes data : List UInt8} {start size : Nat}

theorem cut_of_le (h : start + size ≤ bytes.length) :
    cut bytes start (start + size) = .ok ((bytes.drop start).take size) := by
  rw [cut, if_pos ⟨Nat.le_add_right .., h⟩, Nat.add_sub_cancel_left]

theorem length_take_drop (h : start + size ≤ bytes.length) :
    ((bytes.drop start).take size).length = size := by
  rw [List.length_take, List.length_drop]
  omega

theorem fill_of_length (h : bytes.length = size) : fill size bytes = .ok bytes :=
  if_pos h

theorem patch_of_le (h : start + data.length ≤ bytes.length) :
    patch bytes start (start + data.length) data =
      .ok (bytes.take start ++ data ++ bytes.drop (start + data.length)) := by
  simp only [patch, cut_of_le h, length_take_drop h, fill_of_length, bind, Except.bind]
  rfl

/-! ## Accesses -/

/-- The positions at which an access begins and ends, as words. -/
def range (memory : CallerMemory) (addr length : UInt64) : Except Failure (UInt64 × UInt64) :=
  if memory.base ≤ addr then
    match Word.add? (addr - memory.base) length with
    | none => .error (.badAddress addr)
    | some stop =>
      if memory.bytes.length < stop.toNat then
        .error (.badAddress addr)
      else
        .ok (addr - memory.base, stop)
  else
    .error (.badAddress addr)

/-- The `length` bytes from `addr` on, cut out of the memory and put into a buffer. -/
def readStrict (memory : CallerMemory) (addr length : UInt64) :
    Except Fault (Except Failure (List UInt8)) :=
  match memory.range addr length with
  | .error failure => return .error failure
  | .ok (start, stop) => do
    let part ← cut memory.bytes start.toNat stop.toNat
    let filled ← fill length.toNat part
    return .ok filled

/-- The memory with the data put into the `length` bytes from `addr` on. -/
def writeStrict (memory : CallerMemory) (addr length : UInt64) (data : List UInt8) :
    Except Fault (Except Failure CallerMemory) :=
  match memory.range addr length with
  | .error failure => return .error failure
  | .ok (start, stop) => do
    let bytes ← patch memory.bytes start.toNat stop.toNat data
    return .ok { memory with bytes }

variable {memory : CallerMemory} {addr length : UInt64}

/-- The words that an access is computed with do not wrap. -/
theorem range_of_inside (hsize : memory.bytes.length < UInt64.size)
    (h : memory.Inside addr length.toNat) :
    ∃ start stop, memory.range addr length = .ok (start, stop) ∧
      start.toNat = addr.toNat - memory.base.toNat ∧
      stop.toNat = addr.toNat - memory.base.toNat + length.toNat := by
  obtain ⟨hbase, hend⟩ := h
  have hstart : (addr - memory.base).toNat = addr.toNat - memory.base.toNat :=
    Word.toNat_sub_of_le hbase
  have hfits : (addr - memory.base).toNat + length.toNat < UInt64.size := by omega
  have hstop : (addr - memory.base + length).toNat =
      addr.toNat - memory.base.toNat + length.toNat := by
    rw [Word.toNat_add_of_lt hfits, hstart]
  have hroom : ¬memory.bytes.length < (addr - memory.base + length).toNat := by omega
  refine ⟨addr - memory.base, addr - memory.base + length, ?_, hstart, hstop⟩
  rw [range, if_pos (UInt64.le_iff_toNat_le.2 hbase), Word.add?, if_pos hfits]
  exact if_neg hroom

theorem range_of_not_inside (h : ¬memory.Inside addr length.toNat) :
    memory.range addr length = .error (.badAddress addr) := by
  unfold range
  split
  · rename_i hle
    have hbase : memory.base.toNat ≤ addr.toNat := UInt64.le_iff_toNat_le.1 hle
    cases hstop : Word.add? (addr - memory.base) length with
    | none => rfl
    | some stop =>
      have hstopNat := Word.add?_eq_some_iff.1 hstop
      rw [Word.toNat_sub_of_le hbase] at hstopNat
      have hout : memory.bytes.length < stop.toNat :=
        Nat.lt_of_not_le fun hroom => h ⟨hbase, by omega⟩
      exact if_pos hout
  · rfl

/-- Reading never faults. -/
theorem readStrict_eq (hsize : memory.bytes.length < UInt64.size) (addr length : UInt64) :
    memory.readStrict addr length = .ok (memory.read addr length.toNat) := by
  unfold readStrict
  by_cases hinside : memory.Inside addr length.toNat
  · obtain ⟨start, stop, hrange, hstart, hstop⟩ := range_of_inside hsize hinside
    have hroom : addr.toNat - memory.base.toNat + length.toNat ≤ memory.bytes.length := by
      obtain ⟨hbase, hend⟩ := hinside
      omega
    simp only [hrange, hstart, hstop, cut_of_le hroom, fill_of_length (length_take_drop hroom),
      read_of_inside hinside, bind, Except.bind]
    rfl
  · rw [range_of_not_inside hinside, read_of_not_inside hinside]
    rfl

/-- Writing as many bytes as were asked for never faults. -/
theorem writeStrict_eq (hsize : memory.bytes.length < UInt64.size) (addr : UInt64)
    (hdata : data.length = length.toNat) :
    memory.writeStrict addr length data = .ok (memory.write addr data) := by
  unfold writeStrict
  by_cases hinside : memory.Inside addr length.toNat
  · obtain ⟨start, stop, hrange, hstart, hstop⟩ := range_of_inside hsize hinside
    have hroom : addr.toNat - memory.base.toNat + data.length ≤ memory.bytes.length := by
      obtain ⟨hbase, hend⟩ := hinside
      omega
    rw [← hdata] at hinside hstop
    simp only [hrange, hstart, hstop, patch_of_le hroom, write, position_of_inside hinside, bind,
      Except.bind]
    rfl
  · rw [range_of_not_inside hinside]
    rw [← hdata] at hinside
    rw [write_of_not_inside hinside]
    rfl

end DmaQueue.CallerMemory

/-
  DmaQueue.Proofs.Device.Accesses

  Any accesses to the memory of the caller, one after the other.  Each of them
  succeeds exactly if its bytes are inside, and none of them faults.  The byte at
  an address is always the one that was put there last (`byteAt_play`), so a
  value is read back until something is written over it (`store_of_play`).
-/
import DmaQueue.Proofs.Act.Failing
import DmaQueue.Proofs.Device.StrictMemory
import DmaQueue.Proofs.Request.Record

namespace DmaQueue.CallerMemory

/-! ## Accesses -/

/-- An access to the memory. -/
inductive Access where
  | writeInt (addr : UInt64) (value : Int32)
  | writeRequest (addr : UInt64) (request : Request)
  | readInt (addr : UInt64)
  | readRequest (addr : UInt64)
  | copy (addr length : UInt64)
  deriving DecidableEq, Repr

/-- What a successful access answers. -/
inductive Reply where
  | stored
  | int (value : Int32)
  | request (request : Request)
  | bytes (bytes : List UInt8)
  deriving DecidableEq, Repr

/-- What a write answers, and the memory afterwards: a write that fails leaves it as it was. -/
def written (memory : CallerMemory) :
    Except Failure CallerMemory → Except Failure Reply × CallerMemory
  | .ok changed => (.ok .stored, changed)
  | .error failure => (.error failure, memory)

/-- What a read answers; it leaves the memory as it was. -/
def looked {α : Type} (memory : CallerMemory) (reply : α → Reply) (found : Except Failure α) :
    Except Failure Reply × CallerMemory :=
  (found.map reply, memory)

/-- The signed 32-bit integer that four bytes stand for. -/
def intOf (bytes : List UInt8) : Int32 :=
  (UInt32.ofNat (LittleEndian.decode bytes)).toInt32

/-- The four bytes that stand for a signed 32-bit integer. -/
def intBytes (value : Int32) : List UInt8 :=
  LittleEndian.encode 4 value.toUInt32.toNat

namespace Access

/-- The answer of an access, and the memory afterwards. -/
def act (memory : CallerMemory) : Access → Except Failure Reply × CallerMemory
  | writeInt addr value => memory.written (memory.writeInt addr value)
  | writeRequest addr request => memory.written (memory.writeRequest addr request)
  | readInt addr => memory.looked .int (memory.readInt addr)
  | readRequest addr => memory.looked .request (memory.readRequest addr)
  | copy addr length => memory.looked .bytes (memory.read addr length.toNat)

/-- The same with every fault that could happen. -/
def actStrict (memory : CallerMemory) :
    Access → Except Fault (Except Failure Reply × CallerMemory)
  | writeInt addr value => memory.written <$> memory.writeStrict addr 4 (intBytes value)
  | writeRequest addr request => memory.written <$> memory.writeStrict addr 32 request.toRecord
  | readInt addr => memory.looked (fun bytes => .int (intOf bytes)) <$> memory.readStrict addr 4
  | readRequest addr =>
    memory.looked (fun bytes => .request (.ofRecord bytes)) <$> memory.readStrict addr 32
  | copy addr length => memory.looked .bytes <$> memory.readStrict addr length

/-- Where the access begins. -/
def addr : Access → UInt64
  | writeInt addr _ | writeRequest addr _ | readInt addr | readRequest addr | copy addr _ => addr

/-- How many bytes the access is of. -/
def length : Access → UInt64
  | writeInt .. | readInt _ => 4
  | writeRequest .. | readRequest _ => 32
  | copy _ length => length

/-- The bytes that the access writes, if it is a write. -/
def data? : Access → Option (List UInt8)
  | writeInt _ value => some (intBytes value)
  | writeRequest _ request => some request.toRecord
  | readInt _ | readRequest _ | copy .. => none

/-- What the access makes of the bytes that it reads, if it is a read. -/
def reply : Access → List UInt8 → Reply
  | writeInt .., _ | writeRequest .., _ => .stored
  | readInt _, bytes => .int (intOf bytes)
  | readRequest _, bytes => .request (.ofRecord bytes)
  | copy .., bytes => .bytes bytes

/-- Every byte of the access is inside the memory. -/
def Fits (memory : CallerMemory) (access : Access) : Prop :=
  memory.Inside access.addr access.length.toNat

instance (memory : CallerMemory) (access : Access) : Decidable (access.Fits memory) :=
  inferInstanceAs (Decidable (memory.Inside _ _))

/-- The two accesses have a byte in common. -/
def Overlaps (a b : Access) : Prop :=
  a.addr.toNat < b.addr.toNat + b.length.toNat ∧ b.addr.toNat < a.addr.toNat + a.length.toNat

instance (a b : Access) : Decidable (a.Overlaps b) :=
  inferInstanceAs (Decidable (_ ∧ _))

variable {memory memory' : CallerMemory} {access : Access} {data : List UInt8}

theorem length_data (h : access.data? = some data) : data.length = access.length.toNat := by
  cases access with
  | writeInt addr value =>
    obtain rfl := Option.some.inj h
    exact LittleEndian.length_encode ..
  | writeRequest addr request =>
    obtain rfl := Option.some.inj h
    exact request.length_toRecord
  | readInt | readRequest | copy => exact nomatch h

theorem act_of_write (h : access.data? = some data) :
    access.act memory = memory.written (memory.write access.addr data) := by
  cases access with
  | writeInt | writeRequest =>
    obtain rfl := Option.some.inj h
    rfl
  | readInt | readRequest | copy => exact nomatch h

theorem looked_bind {α : Type} (f : List UInt8 → α) (reply : α → Reply)
    (found : Except Failure (List UInt8)) :
    memory.looked reply (found >>= fun bytes => pure (f bytes)) =
      memory.looked (fun bytes => reply (f bytes)) found := by
  cases found <;> rfl

theorem act_of_read (h : access.data? = none) :
    access.act memory =
      memory.looked access.reply (memory.read access.addr access.length.toNat) := by
  cases access with
  | readInt => exact looked_bind intOf .int _
  | readRequest => exact looked_bind Request.ofRecord .request _
  | copy => rfl
  | writeInt | writeRequest => exact nomatch h

/-- No access faults. -/
theorem actStrict_eq (hsize : memory.bytes.length < UInt64.size) (access : Access) :
    access.actStrict memory = .ok (access.act memory) := by
  cases access with
  | writeInt addr value =>
    have hlength : (intBytes value).length = (4 : UInt64).toNat := LittleEndian.length_encode ..
    rw [actStrict, writeStrict_eq hsize addr hlength]
    rfl
  | writeRequest addr request =>
    rw [actStrict, writeStrict_eq hsize addr request.length_toRecord]
    rfl
  | readInt | readRequest | copy =>
    rw [actStrict, readStrict_eq hsize, act_of_read rfl]
    rfl

/-! ## One access -/

theorem act_of_not_fits (h : ¬access.Fits memory) :
    access.act memory = (.error (.badAddress access.addr), memory) := by
  cases hdata : access.data? with
  | none =>
    rw [act_of_read hdata, read_of_not_inside h]
    rfl
  | some data =>
    rw [Fits, ← length_data hdata] at h
    rw [act_of_write hdata, write_of_not_inside h]
    rfl

theorem act_read_of_fits (hdata : access.data? = none) (h : access.Fits memory) :
    access.act memory =
      (.ok (access.reply (memory.window access.addr access.length.toNat)), memory) := by
  rw [act_of_read hdata, read_of_inside h]
  rfl

theorem act_write_of_fits (hdata : access.data? = some data) (h : access.Fits memory) :
    ∃ changed, access.act memory = (.ok .stored, changed) ∧
      memory.Stores access.addr data changed := by
  rw [Fits, ← length_data hdata] at h
  obtain ⟨changed, hwrite, hstores⟩ := write_of_inside h
  refine ⟨changed, ?_, hstores⟩
  rw [act_of_write hdata, hwrite]
  rfl

/-- An access succeeds exactly if its bytes are inside. -/
theorem act_eq_ok_iff : (∃ reply, (access.act memory).1 = .ok reply) ↔ access.Fits memory := by
  by_cases h : access.Fits memory
  · refine iff_of_true ?_ h
    cases hdata : access.data? with
    | none => exact ⟨_, congrArg Prod.fst (act_read_of_fits hdata h)⟩
    | some data =>
      obtain ⟨changed, hact, -⟩ := act_write_of_fits hdata h
      exact ⟨_, congrArg Prod.fst hact⟩
  · refine iff_of_false ?_ h
    rw [act_of_not_fits h]
    simp

/-- The byte that the access puts at an address. -/
def puts (memory : CallerMemory) (address : Nat) (access : Access) : Option UInt8 :=
  if access.Fits memory ∧ access.addr.toNat ≤ address then
    access.data?.bind (·[address - access.addr.toNat]?)
  else
    none

theorem fits_congr (hbase : memory'.base = memory.base)
    (hsize : memory'.bytes.length = memory.bytes.length) (access : Access) :
    access.Fits memory' ↔ access.Fits memory := by
  rw [Fits, Fits, Inside, Inside, hbase, hsize]

/-- What is put where depends only on where the memory lies. -/
theorem puts_congr (hbase : memory'.base = memory.base)
    (hsize : memory'.bytes.length = memory.bytes.length) (address : Nat) (access : Access) :
    access.puts memory' address = access.puts memory address := by
  have hfits := fits_congr hbase hsize access
  simp only [puts, hfits]

/-- Nothing is put outside the bytes of the access. -/
theorem puts_of_outside {address : Nat}
    (h : address < access.addr.toNat ∨ access.addr.toNat + access.length.toNat ≤ address) :
    access.puts memory address = none := by
  unfold puts
  split
  · rename_i hinside
    cases hdata : access.data? with
    | none => rfl
    | some data =>
      have hlength := length_data hdata
      exact List.getElem?_eq_none (by omega)
  · rfl

/-- An access that is no successful write over a part of another one puts no byte into that. -/
theorem puts_of_not_overlaps {other : Access} {i : Nat}
    (h : other.data? ≠ none → other.Fits memory → ¬other.Overlaps access)
    (hi : i < access.length.toNat) : other.puts memory (access.addr.toNat + i) = none := by
  by_cases houtside : access.addr.toNat + i < other.addr.toNat ∨
      other.addr.toNat + other.length.toNat ≤ access.addr.toNat + i
  · exact puts_of_outside houtside
  · have hoverlaps : other.Overlaps access := ⟨by omega, by omega⟩
    unfold puts
    split
    · rename_i hinside
      have hread : other.data? = none :=
        Decidable.not_not.1 fun hwrites => h hwrites hinside.1 hoverlaps
      rw [hread, Option.bind_none]
    · rfl

theorem act_base_size (memory : CallerMemory) (access : Access) :
    (access.act memory).2.base = memory.base ∧
      (access.act memory).2.bytes.length = memory.bytes.length := by
  by_cases h : access.Fits memory
  · cases hdata : access.data? with
    | none =>
      rw [act_read_of_fits hdata h]
      exact ⟨rfl, rfl⟩
    | some data =>
      obtain ⟨changed, hact, hstores⟩ := act_write_of_fits hdata h
      rw [hact]
      exact ⟨hstores.base, hstores.size⟩
  · rw [act_of_not_fits h]
    exact ⟨rfl, rfl⟩

/-- An access changes the bytes that it puts somewhere, and no others. -/
theorem byteAt_act (memory : CallerMemory) (access : Access) (address : Nat) :
    (access.act memory).2.byteAt address =
      (access.puts memory address).or (memory.byteAt address) := by
  by_cases h : access.Fits memory
  · cases hdata : access.data? with
    | none =>
      rw [act_read_of_fits hdata h, puts, hdata, Option.bind_none, ite_self, Option.none_or]
    | some data =>
      have hlength := length_data hdata
      obtain ⟨changed, hact, hstores⟩ := act_write_of_fits hdata h
      rw [hact]
      by_cases hcovered : access.addr.toNat ≤ address ∧ address < access.addr.toNat + data.length
      · -- The byte is one of the data.
        obtain ⟨hbegin, hend⟩ := hcovered
        have hbyte := hstores.stored (address - access.addr.toNat) (by omega)
        rw [Nat.add_sub_cancel' hbegin] at hbyte
        have hsome : address - access.addr.toNat < data.length := by omega
        rw [hbyte, puts, if_pos ⟨h, hbegin⟩, hdata, Option.bind_some,
          List.getElem?_eq_getElem hsome, Option.some_or]
      · have houtside : address < access.addr.toNat ∨
            access.addr.toNat + access.length.toNat ≤ address := by omega
        rw [hstores.kept address (by omega), puts_of_outside houtside, Option.none_or]
  · rw [act_of_not_fits h, puts, if_neg fun hfits => h hfits.1, Option.none_or]

end Access

/-! ## Any accesses -/

/-- Carries out accesses one after the other, whether or not they succeed. -/
def play : List Access → CallerMemory → List (Except Failure Reply) × CallerMemory
  | [], memory => ([], memory)
  | access :: rest, memory =>
    let (reply, changed) := access.act memory
    let (replies, final) := play rest changed
    (reply :: replies, final)

/-- The same with every fault that could happen. -/
def playStrict : List Access → CallerMemory →
    Except Fault (List (Except Failure Reply) × CallerMemory)
  | [], memory => return ([], memory)
  | access :: rest, memory => do
    let (reply, changed) ← access.actStrict memory
    let (replies, final) ← playStrict rest changed
    return (reply :: replies, final)

variable {memory : CallerMemory} {accesses : List Access}

theorem play_append (first second : List Access) (memory : CallerMemory) :
    (play (first ++ second) memory).2 = (play second (play first memory).2).2 := by
  induction first generalizing memory with
  | nil => rfl
  | cons access rest ih => exact ih (access.act memory).2

/-- The memory stays where it is and keeps its size. -/
theorem play_base_size (accesses : List Access) (memory : CallerMemory) :
    (play accesses memory).2.base = memory.base ∧
      (play accesses memory).2.bytes.length = memory.bytes.length := by
  induction accesses generalizing memory with
  | nil => exact ⟨rfl, rfl⟩
  | cons access rest ih =>
    obtain ⟨hbase, hsize⟩ := access.act_base_size memory
    obtain ⟨hbaseRest, hsizeRest⟩ := ih (access.act memory).2
    exact ⟨hbaseRest.trans hbase, hsizeRest.trans hsize⟩

theorem playStrict_eq (hsize : memory.bytes.length < UInt64.size) (accesses : List Access) :
    playStrict accesses memory = .ok (play accesses memory) := by
  induction accesses generalizing memory with
  | nil => rfl
  | cons access rest ih =>
    have hrest : (access.act memory).2.bytes.length < UInt64.size := by
      rwa [(access.act_base_size memory).2]
    simp only [playStrict, access.actStrict_eq hsize, ih hrest, bind, Except.bind]
    rfl

/-- The byte at an address is the one that was put there last, or the one from before if none
was. -/
theorem byteAt_play (accesses : List Access) (memory : CallerMemory) (address : Nat) :
    (play accesses memory).2.byteAt address =
      (accesses.reverse.findSome? (Access.puts memory address)).or (memory.byteAt address) := by
  induction accesses generalizing memory with
  | nil => rfl
  | cons access rest ih =>
    obtain ⟨hbase, hsize⟩ := access.act_base_size memory
    have hputs : Access.puts (access.act memory).2 address = Access.puts memory address :=
      funext (Access.puts_congr hbase hsize address)
    have hlater := ih (access.act memory).2
    rw [hputs, access.byteAt_act] at hlater
    rw [List.reverse_cons, List.findSome?_append, List.findSome?_singleton, Option.or_assoc]
    exact hlater

/-- The bytes that an access finds are those at its addresses. -/
theorem window_eq {addr : UInt64} {data : List UInt8} (h : memory.Inside addr data.length)
    (hbytes : ∀ i < data.length, memory.byteAt (addr.toNat + i) = data[i]?) :
    memory.window addr data.length = data := by
  obtain ⟨hbase, hend⟩ := h
  apply List.ext_getElem?
  intro i
  by_cases hi : i < data.length
  · have hle : memory.base.toNat ≤ addr.toNat + i := by omega
    have hbyte := hbytes i hi
    rw [byteAt, if_pos hle, Nat.sub_add_comm hbase] at hbyte
    rw [window, List.getElem?_take_of_lt hi, List.getElem?_drop, hbyte]
  · have hout : (memory.window addr data.length).length ≤ i := by
      rw [window, List.length_take]
      omega
    rw [List.getElem?_eq_none hout, List.getElem?_eq_none (Nat.le_of_not_lt hi)]

/-! ## Reading what was written -/

/-- The read is one at the address of the write, of the same kind or of bytes, and the reply says
what was written. -/
inductive ReadsBack : Access → Access → Reply → Prop where
  | int (addr : UInt64) (value : Int32) :
      ReadsBack (.writeInt addr value) (.readInt addr) (.int value)
  | request (addr : UInt64) (request : Request) :
      ReadsBack (.writeRequest addr request) (.readRequest addr) (.request request)
  | bytes {write : Access} {data : List UInt8} (hdata : write.data? = some data) :
      ReadsBack write (.copy write.addr write.length) (.bytes data)

/-- A signed word is written as the unsigned word with the same bits. -/
theorem intOf_intBytes (value : Int32) : intOf (intBytes value) = value := by
  have hfits : value.toUInt32.toNat < LittleEndian.capacity 4 := value.toUInt32.toNat_lt_size
  rw [intOf, intBytes, LittleEndian.decode_encode, Nat.mod_eq_of_lt hfits, UInt32.ofNat_toNat,
    Int32.toInt32_toUInt32]

variable {write read : Access} {reply : Reply}

/-- A read of the bytes that were written replies as it should. -/
theorem ReadsBack.exists_data (h : ReadsBack write read reply) :
    ∃ data, write.data? = some data ∧ read.data? = none ∧ read.addr = write.addr ∧
      read.length = write.length ∧ read.reply data = reply := by
  cases h with
  | int addr value => exact ⟨_, rfl, rfl, rfl, rfl, congrArg Reply.int (intOf_intBytes value)⟩
  | request addr request =>
    exact ⟨_, rfl, rfl, rfl, rfl, congrArg Reply.request request.ofRecord_toRecord⟩
  | bytes hdata => exact ⟨_, hdata, rfl, rfl, rfl, rfl⟩

/-- Where nothing is written over a part of what was written, that is what stands there. -/
theorem byteAt_play_of_write {data : List UInt8} (hdata : write.data? = some data)
    (hfits : write.Fits memory) {between : List Access}
    (hbetween : ∀ other ∈ between, other.data? ≠ none → other.Fits memory → ¬other.Overlaps write)
    {i : Nat} (hi : i < data.length) :
    (play between (write.act memory).2).2.byteAt (write.addr.toNat + i) = data[i]? := by
  have hlength := Access.length_data hdata
  obtain ⟨changed, hact, hstores⟩ := Access.act_write_of_fits hdata hfits
  have hnone : between.reverse.findSome? (Access.puts changed (write.addr.toNat + i)) = none := by
    rw [List.findSome?_eq_none_iff]
    intro other hother
    rw [Access.puts_congr hstores.base hstores.size]
    exact Access.puts_of_not_overlaps (hbetween other (List.mem_reverse.1 hother)) (hlength ▸ hi)
  rw [hact, byteAt_play, hnone, Option.none_or, hstores.stored i hi]

theorem act_of_readsBack (h : ReadsBack write read reply) (hfits : write.Fits memory)
    {between : List Access}
    (hbetween : ∀ other ∈ between, other.data? ≠ none → other.Fits memory →
      ¬other.Overlaps write) :
    (read.act (play between (write.act memory).2).2).1 = .ok reply := by
  obtain ⟨data, hdata, hread, haddr, hlength, hreply⟩ := h.exists_data
  have hdataLength := Access.length_data hdata
  obtain ⟨hbase, hsize⟩ := play_base_size (write :: between) memory
  generalize hfinal : (play between (write.act memory).2).2 = final
  have hbase' : final.base = memory.base := hfinal ▸ hbase
  have hsize' : final.bytes.length = memory.bytes.length := hfinal ▸ hsize
  have hinside : final.Inside write.addr data.length := by
    rw [hdataLength]
    exact (Access.fits_congr hbase' hsize' write).2 hfits
  have hwindow : final.window write.addr data.length = data := by
    refine window_eq hinside fun i hi => ?_
    rw [← hfinal]
    exact byteAt_play_of_write hdata hfits hbetween hi
  have hreadFits : read.Fits final := by
    rw [Access.Fits, haddr, hlength, ← hdataLength]
    exact hinside
  rw [Access.act_read_of_fits hread hreadFits, haddr, hlength, ← hdataLength, hwindow, hreply]

/-- After any accesses, of which none faults, the memory lies where it lay and has the size that it
had, and the byte at an address is the one that was put there last.  A further access succeeds
exactly if all of its bytes are inside; a read answers what it makes of the bytes there and changes
nothing, a write changes its own bytes only, and an access that fails complains about its address
and changes nothing.  What was written is read back at the same address, and in the same way or as
bytes, as long as no successful write in between overlaps it. -/
theorem store_of_play (memory : CallerMemory) (accesses : List Access) :
    let final := (play accesses memory).2
    (memory.bytes.length < UInt64.size → playStrict accesses memory = .ok (play accesses memory)) ∧
    final.base = memory.base ∧ final.bytes.length = memory.bytes.length ∧
    (∀ address, final.byteAt address =
      (accesses.reverse.findSome? (Access.puts memory address)).or (memory.byteAt address)) ∧
    (∀ access : Access,
      ((∃ reply, (access.act final).1 = .ok reply) ↔
        memory.base.toNat ≤ access.addr.toNat ∧
          access.addr.toNat - memory.base.toNat + access.length.toNat ≤ memory.bytes.length) ∧
      (∀ reply, (access.act final).1 = .ok reply →
        (access.data? = none → (access.act final).2 = final ∧
          reply = access.reply (final.window access.addr access.length.toNat)) ∧
        (∀ data, access.data? = some data → final.Stores access.addr data (access.act final).2)) ∧
      (∀ failure, (access.act final).1 = .error failure →
        failure = .badAddress access.addr ∧ (access.act final).2 = final)) ∧
    (∀ write between read reply, ReadsBack write read reply → (write.act final).1 = .ok .stored →
      (∀ other ∈ between, other.data? ≠ none → other.Fits memory → ¬other.Overlaps write) →
        (read.act (play (accesses ++ write :: between) memory).2).1 = .ok reply) := by
  intro final
  obtain ⟨hbase, hsize⟩ := play_base_size accesses memory
  refine ⟨fun hsize => playStrict_eq hsize accesses, hbase, hsize, byteAt_play accesses memory,
    fun access => ⟨?_, fun reply hok => ?_, fun failure herror => ?_⟩,
    fun write between read reply hreads hok hbetween => ?_⟩
  · rw [Access.act_eq_ok_iff, Access.fits_congr hbase hsize, Access.Fits, Inside]
    omega
  · have hfits : access.Fits final := Access.act_eq_ok_iff.1 ⟨reply, hok⟩
    constructor
    · intro hread
      rw [Access.act_read_of_fits hread hfits] at hok ⊢
      exact ⟨rfl, (Except.ok.inj hok).symm⟩
    · intro data hdata
      obtain ⟨changed, hact, hstores⟩ := Access.act_write_of_fits hdata hfits
      rwa [hact]
  · have hfits : ¬access.Fits final := by
      intro hfits
      obtain ⟨reply, hok⟩ := Access.act_eq_ok_iff.2 hfits
      rw [hok] at herror
      exact nomatch herror
    rw [Access.act_of_not_fits hfits] at herror ⊢
    exact ⟨(Except.error.inj herror).symm, rfl⟩
  · have hfits : write.Fits final := Access.act_eq_ok_iff.1 ⟨_, hok⟩
    rw [play_append]
    refine act_of_readsBack hreads hfits fun other hother hwrites hotherFits => ?_
    exact hbetween other hother hwrites ((Access.fits_congr hbase hsize other).1 hotherFits)

/-- Sixty-four bytes of which the last ones have addresses that do not fit the word. -/
def highMemory : CallerMemory :=
  { base := 0xffff_ffff_ffff_fff0, bytes := List.replicate 64 0xee }

/-- A request is written and partly overwritten; a last write is not inside. -/
def highAccesses : List Access :=
  [ .writeRequest 0xffff_ffff_ffff_fff1 ⟨0x1000, 0x2000, 0x40, -1, -7⟩,
    .writeInt 0xffff_ffff_ffff_ffff 5,
    .writeInt 3 5 ]

/-- The integer reaches over the end of the address space.  It is read back after a write just below
it and one to the address that its third byte would have if addresses wrapped; that one fails. -/
theorem store_of_highAccesses :
    (play highAccesses highMemory).1 =
        [.ok .stored, .ok .stored, .error (.badAddress 3)] ∧
      playStrict highAccesses highMemory = .ok (play highAccesses highMemory) ∧
      ((Access.readInt 0xffff_ffff_ffff_fffe).act (play (highAccesses ++
        [.writeInt 0xffff_ffff_ffff_fffe (-9), .writeInt 0xffff_ffff_ffff_fffa 1, .writeInt 0 2])
          highMemory).2).1 = .ok (.int (-9)) := by
  obtain ⟨hstrict, -, -, -, -, hreads⟩ := store_of_play highMemory highAccesses
  refine ⟨by decide +kernel, hstrict (by decide), ?_⟩
  exact hreads _ _ _ _ (.int 0xffff_ffff_ffff_fffe (-9)) (by decide +kernel) (by decide +kernel)

end DmaQueue.CallerMemory

/-
  DmaQueue.Proofs.Device.Control

  The control entry point does what the direct calls do: a command that reaches
  its record, or the place for its answer, has the outcome of the direct call,
  and one that does not leaves the caller's memory as it is.
-/
import DmaQueue.Device.Basic
import DmaQueue.Proofs.Device.CallerMemory
import DmaQueue.Proofs.Engine.History
import DmaQueue.Proofs.Request.Record

namespace DmaQueue

/-! ## Words and records in the caller's memory -/

namespace CallerMemory

variable {memory changed : CallerMemory} {addr : UInt64}

/-- The bytes that say whether work is left. -/
def busyBytes (busy : Bool) : List UInt8 :=
  [if busy then 1 else 0, 0, 0, 0]

theorem writeInt_busy (memory : CallerMemory) (addr : UInt64) (busy : Bool) :
    memory.writeInt addr (if busy then 1 else 0) = memory.write addr (busyBytes busy) := by
  cases busy <;> rfl

theorem readRequest_of_inside (h : memory.Inside addr Request.recordSize) :
    memory.readRequest addr = .ok (.ofRecord (memory.window addr Request.recordSize)) := by
  rw [readRequest, read_of_inside h]
  rfl

theorem readRequest_of_not_inside (h : ¬memory.Inside addr Request.recordSize) :
    memory.readRequest addr = .error (.badAddress addr) := by
  rw [readRequest, read_of_not_inside h]
  rfl

theorem writeRequest_of_inside (h : memory.Inside addr Request.recordSize) (request : Request) :
    ∃ changed, memory.writeRequest addr request = .ok changed ∧
      memory.Stores addr request.toRecord changed := by
  rw [← request.length_toRecord] at h
  exact write_of_inside h

/-- A request is read back from where it was written. -/
theorem readRequest_of_write {request : Request}
    (h : memory.writeRequest addr request = .ok changed) :
    changed.readRequest addr = .ok request := by
  have hread := read_of_write h
  rw [request.length_toRecord] at hread
  rw [readRequest, hread]
  exact congrArg Except.ok request.ofRecord_toRecord

end CallerMemory

/-- A submission complains about the request or about the pages, never about an address. -/
theorem Engine.Submits.ne_badAddress {P R : Type} [Pinner P] [Registers R] {request : Request}
    {engine engine' : Engine P R} {answer : Except Failure Unit} {events : List Event}
    (h : Submits request engine answer engine' events) (addr : UInt64) :
    answer ≠ .error (.badAddress addr) := by
  cases h with
  | rejected | rolledBack | queued => simp

namespace Device

variable {P R : Type} [Pinner P] [Registers R] {memory changed : CallerMemory} {addr : UInt64}

theorem submit_ne_badAddress (request : Request) (device : Device P R) (addr : UInt64) :
    (submit request device).result ≠ .ok (.error (.badAddress addr)) := by
  intro h
  have hsubmit := Outcome.eq_of_result (o := Engine.submit request device.engine) h
  exact (Engine.submit_eq_ok hsubmit).ne_badAddress addr rfl

/-! ## The commands -/

theorem control_of_unknown {code : UInt32} (hpoll : code ≠ 0) (hsubmit : code ≠ 1)
    (addr : UInt64) (memory : CallerMemory) (device : Device P R) :
    control code addr memory device = ⟨.ok (.error (.unsupported code), memory), device, []⟩ := by
  have hcode : Command.ofCode code = .error (.unsupported code) := by
    simp [Command.ofCode, Command.code, hpoll, hsubmit]
  rw [control, hcode]
  rfl

/-- The answer of a command that polls, and the memory afterwards. -/
def polledAnswer (addr : UInt64) (memory : CallerMemory) (busy : Bool) :
    Except Failure Unit × CallerMemory :=
  match memory.writeInt addr (if busy then 1 else 0) with
  | .ok changed => (.ok (), changed)
  | .error failure => (.error failure, memory)

theorem polledAnswer_of_inside (h : memory.Inside addr 4) (busy : Bool) :
    ∃ stored, memory.Stores addr (CallerMemory.busyBytes busy) stored ∧
      polledAnswer addr memory busy = (.ok (), stored) := by
  have hinside : memory.Inside addr (CallerMemory.busyBytes busy).length := h
  obtain ⟨stored, hwrite, hstores⟩ := CallerMemory.write_of_inside hinside
  refine ⟨stored, hstores, ?_⟩
  rw [polledAnswer, CallerMemory.writeInt_busy, hwrite]

theorem polledAnswer_of_not_inside (h : ¬memory.Inside addr 4) (busy : Bool) :
    polledAnswer addr memory busy = (.error (.badAddress addr), memory) := by
  have houtside : ¬memory.Inside addr (CallerMemory.busyBytes busy).length := h
  rw [polledAnswer, CallerMemory.writeInt_busy, CallerMemory.write_of_not_inside houtside]

/-- The loop runs first, and only its answer depends on the memory. -/
theorem control_poll (addr : UInt64) (memory : CallerMemory) (device : Device P R) :
    control 0 addr memory device = (poll device).map (polledAnswer addr memory) := by
  have hpollInto : (pollInto addr memory : Act Event (Device P R) _) = do
      let busy ← poll
      return polledAnswer addr memory busy := by
    unfold pollInto polledAnswer
    congr 1
    funext busy
    cases memory.writeInt addr (if busy then 1 else 0) <;> rfl
  show pollInto addr memory device = _
  rw [hpollInto]
  exact Act.bind_pure_apply poll _ device

theorem control_poll_of_inside (h : memory.Inside addr 4) (device : Device P R) :
    ∃ stored : Bool → CallerMemory,
      (∀ busy, memory.Stores addr (CallerMemory.busyBytes busy) (stored busy)) ∧
      control 0 addr memory device = (poll device).map fun busy => (.ok (), stored busy) := by
  obtain ⟨stored, hstored⟩ := Classical.skolem.1 (polledAnswer_of_inside h)
  have hanswer : polledAnswer addr memory = fun busy => (.ok (), stored busy) :=
    funext fun busy => (hstored busy).2
  exact ⟨stored, fun busy => (hstored busy).1, hanswer ▸ control_poll addr memory device⟩

theorem control_poll_of_not_inside (h : ¬memory.Inside addr 4) (device : Device P R) :
    control 0 addr memory device =
      (poll device).map fun _ => (.error (.badAddress addr), memory) := by
  rw [control_poll, funext (polledAnswer_of_not_inside h)]

theorem control_submit (addr : UInt64) (memory : CallerMemory) (device : Device P R) :
    control 1 addr memory device = (submitFrom addr memory device).map (·, memory) :=
  Act.bind_pure_apply (submitFrom addr memory) _ device

theorem control_submit_of_read {request : Request} (h : memory.readRequest addr = .ok request)
    (device : Device P R) :
    control 1 addr memory device = (submit request device).map (·, memory) := by
  rw [control_submit, submitFrom, h]

theorem control_submit_of_not_inside (h : ¬memory.Inside addr Request.recordSize)
    (device : Device P R) :
    control 1 addr memory device = ⟨.ok (.error (.badAddress addr), memory), device, []⟩ := by
  rw [control_submit, submitFrom, CallerMemory.readRequest_of_not_inside h]
  rfl

/-- A submission by command complains about the address exactly if the record is not inside. -/
theorem control_submit_eq_badAddress_iff {bad : UInt64} {after : CallerMemory}
    (device : Device P R) :
    (control 1 addr memory device).result = .ok (.error (.badAddress bad), after) ↔
      ¬memory.Inside addr Request.recordSize ∧ bad = addr ∧ after = memory := by
  by_cases hinside : memory.Inside addr Request.recordSize
  · rw [control_submit_of_read (CallerMemory.readRequest_of_inside hinside)]
    simp only [hinside, not_true_eq_false, false_and, iff_false, Outcome.result_map]
    intro h
    -- The complaint would be one of the submission itself.
    cases hresult :
        (submit (.ofRecord (memory.window addr Request.recordSize)) device).result with
    | error fault => simp [hresult, Except.map] at h
    | ok answer =>
      simp only [hresult, Except.map, Except.ok.injEq, Prod.mk.injEq] at h
      rw [h.1] at hresult
      exact submit_ne_badAddress _ device bad hresult
  · rw [control_submit_of_not_inside hinside]
    simp [hinside, eq_comm]

/-- The control entry point on any device, whatever its memory manager and its registers are.  An
unknown code is answered as such, and nothing changes.  A submission never changes the memory; it
has the outcome of the direct submission of the record at the address, or is refused with nothing
changed, the latter exactly if the record is not inside the memory; so a request that was written
there is submitted as it was.  A poll has the outcome of the direct poll, and leaves the answer in
the four bytes at the address, or changes nothing of the memory if those are not inside. -/
theorem control_refines (addr : UInt64) (memory : CallerMemory) (device : Device P R) :
    (∀ code, code ≠ 0 → code ≠ 1 →
      control code addr memory device =
        ⟨.ok (.error (.unsupported code), memory), device, []⟩) ∧
    (memory.Inside addr 32 →
      control 1 addr memory device =
        (submit (.ofRecord (memory.window addr 32)) device).map (·, memory)) ∧
    (¬memory.Inside addr 32 →
      control 1 addr memory device = ⟨.ok (.error (.badAddress addr), memory), device, []⟩) ∧
    (∀ bad after,
      (control 1 addr memory device).result = .ok (.error (.badAddress bad), after) ↔
        ¬memory.Inside addr 32 ∧ bad = addr ∧ after = memory) ∧
    (∀ request, memory.Inside addr 32 →
      ∃ changed, memory.writeRequest addr request = .ok changed ∧
        memory.Stores addr request.toRecord changed ∧
        control 1 addr changed device = (submit request device).map (·, changed)) ∧
    (memory.Inside addr 4 →
      ∃ stored : Bool → CallerMemory,
        (∀ busy, memory.Stores addr [if busy then 1 else 0, 0, 0, 0] (stored busy)) ∧
        control 0 addr memory device = (poll device).map fun busy => (.ok (), stored busy)) ∧
    (¬memory.Inside addr 4 →
      control 0 addr memory device =
        (poll device).map fun _ => (.error (.badAddress addr), memory)) := by
  refine ⟨fun code hpoll hsubmit => control_of_unknown hpoll hsubmit addr memory device,
    fun hinside => control_submit_of_read (CallerMemory.readRequest_of_inside hinside) device,
    fun houtside => control_submit_of_not_inside houtside device,
    fun bad after => control_submit_eq_badAddress_iff device, fun request hinside => ?_,
    fun hinside => control_poll_of_inside hinside device,
    fun houtside => control_poll_of_not_inside houtside device⟩
  obtain ⟨changed, hwrite, hstores⟩ := CallerMemory.writeRequest_of_inside hinside request
  exact ⟨changed, hwrite, hstores,
    control_submit_of_read (CallerMemory.readRequest_of_write hwrite) device⟩

/-- The small engine, and nobody in. -/
def smallDevice : Device RegionTable FifoPair :=
  { engine := Engine.smallEngine }

/-- Sixty-four bytes. -/
def smallMemory : CallerMemory :=
  { base := 0x1000, bytes := List.replicate 64 0xff }

/-- A request that doubles its bytes; its attribute is negative. -/
def smallRequest : Request :=
  { source := 0x12040, dest := 0x10000, length := 0x2000, opcode := 1, attr := -3 }

/-- The last record that is inside is that at `0x1020`; the request is submitted from there and
accepted. -/
theorem control_refines_small :
    ∃ changed idle,
      smallMemory.writeRequest 0x1020 smallRequest = .ok changed ∧
      (control 1 0x1020 changed smallDevice).result = .ok (.ok (), changed) ∧
      control 1 0x1021 smallMemory smallDevice =
        ⟨.ok (.error (.badAddress 0x1021), smallMemory), smallDevice, []⟩ ∧
      smallMemory.Stores 0x103c [0, 0, 0, 0] idle ∧
      (control 0 0x103c smallMemory smallDevice).result = .ok (.ok (), idle) := by
  obtain ⟨-, -, -, -, hwritten, -⟩ := control_refines 0x1020 smallMemory smallDevice
  obtain ⟨-, -, houtside, -⟩ := control_refines 0x1021 smallMemory smallDevice
  obtain ⟨-, -, -, -, -, hstored, -⟩ := control_refines 0x103c smallMemory smallDevice
  obtain ⟨changed, hwrite, -, hsubmit⟩ := hwritten smallRequest (by decide +kernel)
  obtain ⟨stored, hstores, hpoll⟩ := hstored (by decide +kernel)
  have haccepted : (submit smallRequest smallDevice).result = .ok (.ok ()) := by decide +kernel
  have hidle : (poll smallDevice).result = .ok false := by decide +kernel
  refine ⟨changed, stored false, hwrite, ?_, houtside (by decide +kernel), hstores false, ?_⟩
  · rw [hsubmit, Outcome.result_map, haccepted]
    rfl
  · rw [hpoll, Outcome.result_map, hidle]
    rfl

end Device

end DmaQueue

/-
  DmaQueue.Device.Basic

  A device: an engine behind a gate.  One client at a time has it open, and
  the work that a client leaves behind is carried on for the next one.
-/
import DmaQueue.Device.CallerMemory
import DmaQueue.Device.Command
import DmaQueue.Device.Gate
import DmaQueue.Engine.Submit

namespace DmaQueue

/-- A device over the memory manager `P` and the control block `R`. -/
structure Device (P R : Type) where
  /-- Who has the device open. -/
  gate : Gate := {}
  /-- The engine. -/
  engine : Engine P R

namespace Device

variable {P R α : Type}

/-! ## Parts -/

/-- An act of the gate. -/
def onGate (m : Act Note Gate α) : Act Event (Device P R) α :=
  Act.zoom Device.gate (fun gate device => { device with gate }) (Act.mapEvents .noted m)

/-- An act of the engine. -/
def onEngine (m : Act Event (Engine P R) α) : Act Event (Device P R) α :=
  Act.zoom Device.engine (fun engine device => { device with engine }) m

/-- An act for a client; nothing is done for one that does not have the device open. -/
def ifOpenFor (client : Nat) (m : Act Event (Device P R) α) :
    Act Event (Device P R) (Option α) := do
  let device ← Act.get
  if device.gate.holds client then
    some <$> m
  else
    return none

/-! ## Sessions -/

/-- Opens the device for a client, if nobody has it open. -/
def openFor (client : Nat) : Act Event (Device P R) (Except Failure Unit) :=
  onGate (Gate.enter client)

/-- Closes the device for a client; answers whether the client had it open. -/
def closeFor (client : Nat) : Act Event (Device P R) Bool :=
  onGate (Gate.leave client)

/-- Whether somebody has the device open. -/
def isOpen (device : Device P R) : Bool :=
  !device.gate.free

/-! ## Work -/

variable [Pinner P] [Registers R]

/-- Takes a request in. -/
def submit (request : Request) : Act Event (Device P R) (Except Failure Unit) :=
  onEngine (Engine.submit request)

/-- Runs the issue loop; answers whether work is left. -/
def poll : Act Event (Device P R) Bool :=
  onEngine Engine.poll

/-- Runs the issue loop and stores the answer, 1 or 0, at `addr`. -/
def pollInto (addr : UInt64) (memory : CallerMemory) :
    Act Event (Device P R) (Except Failure Unit × CallerMemory) := do
  -- The loop runs whether or not the answer can be stored.
  let busy ← poll
  match memory.writeInt addr (if busy then 1 else 0) with
  | .ok changed => return (.ok (), changed)
  | .error failure => return (.error failure, memory)

/-- Takes in the request whose record is at `addr`. -/
def submitFrom (addr : UInt64) (memory : CallerMemory) :
    Act Event (Device P R) (Except Failure Unit) :=
  match memory.readRequest addr with
  | .ok request => submit request
  | .error failure => return .error failure

/-- The control entry point: a command code, and the address in the caller's memory that the command
works on.  Answers the result and the caller's memory afterwards. -/
def control (code : UInt32) (addr : UInt64) (memory : CallerMemory) :
    Act Event (Device P R) (Except Failure Unit × CallerMemory) :=
  match Command.ofCode code with
  | .error failure => return (.error failure, memory)
  | .ok .poll => pollInto addr memory
  | .ok .submit => do
    let answer ← submitFrom addr memory
    return (answer, memory)

end Device

end DmaQueue

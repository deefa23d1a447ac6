/-
  DmaQueue.Device.Gate

  Exclusive ownership of a device.  Clients are known by number.  Whoever comes
  while the gate is taken is turned away at once and may come again later.
-/
import DmaQueue.Failure
import DmaQueue.Trace.Note

namespace DmaQueue

/-- The gate of a device. -/
structure Gate where
  /-- Whether the next client gets in. -/
  free : Bool := true
  /-- The clients that are in. -/
  holders : List Nat := []
  deriving DecidableEq, Repr

namespace Gate

/-- Whether the client is in. -/
def holds (gate : Gate) (client : Nat) : Bool :=
  gate.holders.contains client

/-- Lets a client in, if the gate is free. -/
def enter (client : Nat) : Act Note Gate (Except Failure Unit) := do
  let gate ← Act.get
  if gate.free then do
    Act.modify fun g => { g with free := false, holders := client :: g.holders }
    Act.emit ⟨.info, "[ACCEL] device opened"⟩
    return .ok ()
  else
    return .error .busy

/-- Lets a client out, which frees the gate; answers whether the client was in. -/
def leave (client : Nat) : Act Note Gate Bool := do
  let gate ← Act.get
  if gate.holds client then do
    Act.modify fun g => { g with free := true, holders := g.holders.erase client }
    Act.emit ⟨.info, "[ACCEL] device closed"⟩
    return true
  else
    return false

end Gate

end DmaQueue

/-
  DmaQueue.Device.Command

  The commands of the control entry point and their codes.
-/
import DmaQueue.Failure

namespace DmaQueue

/-- A control command. -/
inductive Command where
  /-- Runs the issue loop and stores whether work is left. -/
  | poll
  /-- Takes in the request whose record the caller points at. -/
  | submit
  deriving DecidableEq, Repr

namespace Command

/-- The code of a command. -/
def code : Command → UInt32
  | .poll => 0
  | .submit => 1

/-- The command of a code. -/
def ofCode (code : UInt32) : Except Failure Command :=
  if code = poll.code then .ok .poll
  else if code = submit.code then .ok .submit
  else .error (.unsupported code)

theorem ofCode_eq_ok_iff {code : UInt32} {command : Command} :
    ofCode code = .ok command ↔ code = command.code := by
  unfold ofCode
  cases command <;> grind [Command.code]

end Command

end DmaQueue

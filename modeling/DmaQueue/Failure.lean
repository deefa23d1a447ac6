/-
  DmaQueue.Failure

  The refusals that a caller of the device can meet, their wording, and the
  negative status code with which the control entry point reports each.
-/
import DmaQueue.Request.Admission

namespace DmaQueue

/-- Why the device refuses. -/
inductive Failure where
  /-- The request is malformed; nothing was pinned. -/
  | invalidArgument (rejection : Rejection)
  /-- Not every page could be pinned; those that were are released again. -/
  | resourceExhausted (requested pinned : Nat)
  /-- Somebody else has the device open. -/
  | busy
  /-- No such command. -/
  | unsupported (code : UInt32)
  /-- The caller's memory cannot be read or written there. -/
  | badAddress (addr : UInt64)
  /-- The configuration is flawed. -/
  | invalidConfig (flaw : ConfigFlaw)
  deriving DecidableEq, Repr

namespace Failure

/-- The wording of a failure. -/
def message : Failure → String
  | .invalidArgument rejection => s!"invalid argument: {rejection.message}"
  | .resourceExhausted requested pinned => s!"pinned {pinned} of {requested} pages"
  | .busy => "device busy"
  | .unsupported code => s!"unsupported command {code.toNat}"
  | .badAddress addr => s!"bad address {Hex.marked addr.toNat}"
  | .invalidConfig flaw => s!"invalid configuration: {flaw.message}"

/-- The status code of a failure. -/
def status : Failure → Int
  | .invalidArgument _ => -22
  | .resourceExhausted _ _ => -12
  | .busy => -16
  | .unsupported _ => -38
  | .badAddress _ => -14
  | .invalidConfig _ => -22

/-- Whether the request itself is at fault. -/
def isInvalidArgument : Failure → Bool
  | .invalidArgument _ => true
  | _ => false

end Failure

end DmaQueue

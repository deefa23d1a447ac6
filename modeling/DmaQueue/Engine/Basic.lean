/-
  DmaQueue.Engine.Basic

  The engine: a queue of transfers whose descriptors are not all written yet,
  and the transfers that the accelerator is still working on.  Transfers leave
  the queue in the order in which they came.
-/
import DmaQueue.Failure
import DmaQueue.Tally
import DmaQueue.Transfer.Basic

namespace DmaQueue

/-- An engine over the memory manager `P` and the control block `R`. -/
structure Engine (P R : Type) where
  /-- The parameters. -/
  config : Config
  /-- The memory manager. -/
  pinner : P
  /-- The control block. -/
  registers : R
  /-- The transfers with descriptors still to be written, oldest first. -/
  pending : List Transfer := []
  /-- The transfers that are written and not yet reclaimed, oldest first. -/
  inFlight : List Transfer := []
  /-- The counters. -/
  tally : Tally := {}

namespace Engine

variable {P R α : Type}

/-! ## Parts -/

/-- An act of the memory manager. -/
def onPinner (m : Act Event P α) : Act Event (Engine P R) α :=
  Act.zoom Engine.pinner (fun pinner engine => { engine with pinner }) m

/-- An act of the control block. -/
def onRegisters (m : Act Event R α) : Act Event (Engine P R) α :=
  Act.zoom Engine.registers (fun registers engine => { engine with registers }) m

/-- Changes the counters. -/
def count (f : Tally → Tally) : Act Event (Engine P R) Unit :=
  Act.modify fun engine => { engine with tally := f engine.tally }

/-! ## Contents -/

/-- Whether a transfer is pending or in flight. -/
def hasWork (engine : Engine P R) : Bool :=
  !engine.pending.isEmpty || !engine.inFlight.isEmpty

/-- The transfer whose descriptors are being written. -/
def head? (engine : Engine P R) : Option Transfer :=
  engine.pending.head?

/-- The engine whose oldest pending transfer, if there is one, is in flight. -/
def retireHead (engine : Engine P R) : Engine P R :=
  match engine.pending with
  | [] => engine
  | t :: rest => { engine with pending := rest, inFlight := engine.inFlight ++ [t] }

/-- The engine with its counters at zero. -/
def resetTally (engine : Engine P R) : Engine P R :=
  { engine with tally := {} }

/-! ## Beginning and end -/

/-- An engine with nothing queued.  The configuration has to be sound, and the memory manager has to
split ranges at its page size. -/
def create [Pinner P] (config : Config) (pinner : P) (registers : R) :
    List Note × Except Failure (Engine P R) :=
  match config.flaw? with
  | some flaw => ([], .error (.invalidConfig flaw))
  | none =>
    let granule := Pinner.granule pinner
    if granule ≠ config.pageSize then
      let shown := Hex.marked config.pageSize.toNat
      let other := Hex.marked granule.toNat
      ([⟨.warn, s!"[ACCEL] page size {shown} does not match pinner page size {other}"⟩],
        .error (.invalidConfig .pageSizeMismatch))
    else
      ([], .ok { config, pinner, registers })

/-- What is noted when the engine is given up: transfers that are left keep their pages. -/
def farewell (engine : Engine P R) : List Note :=
  if engine.hasWork then
    let pending := engine.pending.length
    let inFlight := engine.inFlight.length
    [⟨.warn, s!"[ACCEL] engine dropped with {pending} pending, {inFlight} in flight"⟩]
  else
    []

/-! ## Work that is left -/

/-- The work in some transfers: one for each descriptor to be written, and one for each transfer. -/
def work : List Transfer → Nat
  | [] => 0
  | t :: rest => t.remaining + 1 + work rest

/-- A bound on the turns that are left: the work in the pending transfers. -/
def workload (engine : Engine P R) : Nat :=
  work engine.pending

theorem pending_of_onPinner {α : Type} {m : Act Event P α} {engine engine' : Engine P R} {a : α}
    {events : List Event} (h : onPinner m engine = ⟨.ok a, engine', events⟩) :
    engine'.pending = engine.pending := by
  obtain ⟨pinner, -, rfl⟩ := Act.zoom_eq_ok_iff.1 h
  rfl

theorem pending_of_onRegisters {α : Type} {m : Act Event R α} {engine engine' : Engine P R} {a : α}
    {events : List Event} (h : onRegisters m engine = ⟨.ok a, engine', events⟩) :
    engine'.pending = engine.pending := by
  obtain ⟨registers, -, rfl⟩ := Act.zoom_eq_ok_iff.1 h
  rfl

theorem workload_cons {t : Transfer} {rest : List Transfer} {engine : Engine P R}
    (h : engine.pending = t :: rest) :
    engine.workload = t.remaining + 1 + work rest := by
  rw [workload, h, work]

theorem work_lt (t : Transfer) (rest : List Transfer) :
    work rest < t.remaining + 1 + work rest := by
  omega

end Engine

end DmaQueue

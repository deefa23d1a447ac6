/-
  DmaQueue.Engine.Submit

  Taking a request in: it is checked, both ranges are pinned, and the transfer
  joins the queue.  A request whose ranges could not be pinned whole leaves
  nothing pinned.
-/
import DmaQueue.Engine.Run

namespace DmaQueue.Engine

variable {P R : Type} [Pinner P] [Registers R]

/-- Pins a range; a refusal counts as no page. -/
def pinRange (address length : UInt64) (writable : Bool) :
    Act Event (Engine P R) (List PinnedPage) := do
  match ← onPinner (Pinner.pinRange address length writable) with
  | .ok pages => return pages
  | .error failure =>
    let range := s!"{Hex.marked address.toNat}+{Hex.marked length.toNat}"
    Act.note .debug s!"[ACCEL] pin {range} failed: {failure.message}"
    return []

/-- Releases the pages of a request that was not pinned whole. -/
def rollBack (request : Request) (admitted : Admitted) (source dest : List PinnedPage) :
    Act Event (Engine P R) (Except Failure Unit) := do
  let requested ← Act.ofExcept (Word.checkedAdd admitted.source.pages admitted.dest.pages)
  let pinned := source.length + dest.length
  -- Nothing was written to these pages, the destination's included.
  onPinner (Pinner.unpinAll false (source ++ dest))
  count Tally.countRollback
  let way := s!"{Hex.marked request.source.toNat} -> {Hex.marked request.dest.toNat}"
  Act.note .warn
    s!"[ACCEL] pinned {pinned} of {requested.toNat} pages for {way}, rolled back"
  return .error (.resourceExhausted requested.toNat pinned)

/-- Puts the transfer of a request at the end of the queue and runs the issue loop. -/
def enqueue (request : Request) (admitted : Admitted) (source dest : List PinnedPage) :
    Act Event (Engine P R) (Except Failure Unit) := do
  let origin := s!"{Hex.marked request.source.toNat}+{Hex.marked request.length.toNat}"
  let target := s!"{Hex.marked request.dest.toNat}+{Hex.marked admitted.outputLength.toNat}"
  let units := s!"op={request.opcode.toInt} attr={Hex.marked request.attr.toUInt32.toNat}"
  let pages := s!"({admitted.source.pages.toNat} + {admitted.dest.pages.toNat} pages)"
  Act.note .debug s!"[ACCEL] queued {origin} -> {target} {units} {pages}"
  Act.modify fun engine =>
    { engine with pending := engine.pending ++ [.ofAdmitted request admitted source dest] }
  count Tally.countSubmitted
  let _ ← (run : Act Event (Engine P R) Pause)
  return .ok ()

/-- Pins both ranges of a request that was let in, and queues it if every page was pinned. -/
def pinAndQueue (request : Request) (admitted : Admitted) :
    Act Event (Engine P R) (Except Failure Unit) := do
  -- Both ranges are pinned before either answer is looked at.
  let source ← pinRange request.source request.length false
  let dest ← pinRange request.dest admitted.outputLength true
  if source.length = admitted.source.pages.toNat ∧ dest.length = admitted.dest.pages.toNat then
    enqueue request admitted source dest
  else
    rollBack request admitted source dest

/-- Takes a request in. -/
def submit (request : Request) : Act Event (Engine P R) (Except Failure Unit) := do
  let engine ← Act.get
  match ← Act.ofExcept (request.admission engine.config) with
  | .error rejection =>
    count Tally.countRejected
    Act.note .debug s!"[ACCEL] rejected request: {rejection.message}"
    return .error (.invalidArgument rejection)
  | .ok admitted => pinAndQueue request admitted

end DmaQueue.Engine

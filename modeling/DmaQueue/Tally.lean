/-
  DmaQueue.Tally

  The counters of an engine.  A counter that has reached the largest word
  stays there.
-/
import DmaQueue.Register.Basic
import DmaQueue.Word

namespace DmaQueue

/-- What an engine counts. -/
structure Tally where
  /-- Requests queued. -/
  submitted : UInt64 := 0
  /-- Requests not let in. -/
  rejected : UInt64 := 0
  /-- Requests whose pages were released again at once. -/
  rollbacks : UInt64 := 0
  /-- Source descriptors written. -/
  sourceDescriptors : UInt64 := 0
  /-- Destination descriptors written. -/
  destDescriptors : UInt64 := 0
  /-- Runs that ended at a full FIFO. -/
  stalls : UInt64 := 0
  /-- Transfers reclaimed. -/
  reclaimedTransfers : UInt64 := 0
  /-- Pages released with them. -/
  reclaimedPages : UInt64 := 0
  deriving DecidableEq, Repr

namespace Tally

open Word

/-- Counts a request that is queued. -/
def countSubmitted (tally : Tally) : Tally :=
  { tally with submitted := saturatingAdd tally.submitted 1 }

/-- Counts a request that is not let in. -/
def countRejected (tally : Tally) : Tally :=
  { tally with rejected := saturatingAdd tally.rejected 1 }

/-- Counts a request whose pages are released again. -/
def countRollback (tally : Tally) : Tally :=
  { tally with rollbacks := saturatingAdd tally.rollbacks 1 }

/-- Counts a descriptor written to a side. -/
def countDescriptor (side : Side) (tally : Tally) : Tally :=
  match side with
  | .source => { tally with sourceDescriptors := saturatingAdd tally.sourceDescriptors 1 }
  | .dest => { tally with destDescriptors := saturatingAdd tally.destDescriptors 1 }

/-- Counts a run that ends at a full FIFO. -/
def countStall (tally : Tally) : Tally :=
  { tally with stalls := saturatingAdd tally.stalls 1 }

/-- Counts a transfer reclaimed with so many pages. -/
def countReclaimed (pages : Nat) (tally : Tally) : Tally :=
  { tally with
    reclaimedTransfers := saturatingAdd tally.reclaimedTransfers 1
    reclaimedPages := saturatingAdd tally.reclaimedPages pages }

/-- The descriptors written to both sides; their sum has to fit the word. -/
def descriptors (tally : Tally) : Except Fault UInt64 :=
  checkedAdd tally.sourceDescriptors tally.destDescriptors

end Tally

end DmaQueue

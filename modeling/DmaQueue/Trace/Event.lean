/-
  DmaQueue.Trace.Event

  The record that a running engine leaves: every register access, every call
  on the memory manager, and the diagnostic notes, in the order in which they
  happened.
-/
import DmaQueue.Pinner.Basic

namespace DmaQueue

/-- One entry of the record. -/
inductive Event where
  /-- A register was read. -/
  | loaded (offset : UInt64) (value : UInt32)
  /-- A register was written. -/
  | stored (offset : UInt64) (value : UInt32)
  /-- A range was given to be pinned, and these pages came back; none if the call was refused. -/
  | pinned (address length : UInt64) (writable : Bool) (pages : List PinnedPage)
  /-- A page was released. -/
  | unpinned (page : PinnedPage) (dirty : Bool)
  /-- A diagnostic note was made. -/
  | noted (note : Note)
  deriving DecidableEq, Repr

namespace Event

/-- The note, if the entry is one. -/
def note? : Event → Option Note
  | .noted note => some note
  | _ => none

/-- The notes of a record. -/
def notes (events : List Event) : List Note :=
  events.filterMap note?

end Event

/-- Makes a note. -/
def Act.note {σ : Type} (level : Level) (text : String) : Act Event σ Unit :=
  Act.emit (.noted ⟨level, text⟩)

/-! ## Recorded calls on the memory manager -/

namespace Pinner

variable {P : Type} [Pinner P]

/-- Pins a range and enters the call into the record. -/
def pinRange (address length : UInt64) (writable : Bool) :
    Act Event P (Except PinFailure (List PinnedPage)) := do
  let answer ← Act.mapEvents .noted (Pinner.pin address length writable)
  Act.emit (.pinned address length writable (answer.toOption.getD []))
  return answer

/-- Releases a page and enters the call into the record. -/
def unpinPage (page : PinnedPage) (dirty : Bool) : Act Event P Unit := do
  Act.mapEvents .noted (Pinner.unpin page dirty)
  Act.emit (.unpinned page dirty)

/-- Releases the pages in order. -/
def unpinAll (dirty : Bool) : List PinnedPage → Act Event P Unit
  | [] => return ()
  | page :: rest => do
    unpinPage page dirty
    unpinAll dirty rest

end Pinner

end DmaQueue

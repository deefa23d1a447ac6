/-
  DmaQueue.Transfer.Progress

  How far the descriptors of a transfer are written.  The first source chunk
  goes first, then the first destination chunk, then the rest of the source,
  then the rest of the destination:

      sourceHead → destHead → sourceTail 1 … → destTail 1 … → sent

  where a tail with no chunk in it is left out.
-/
import DmaQueue.Register.Basic

namespace DmaQueue

/-- What is written next. -/
inductive Progress where
  /-- The first source chunk. -/
  | sourceHead
  /-- The first destination chunk. -/
  | destHead
  /-- The source chunk number `next`. -/
  | sourceTail (next : Nat)
  /-- The destination chunk number `next`. -/
  | destTail (next : Nat)
  /-- Nothing: every descriptor is written. -/
  | sent
  deriving DecidableEq, Repr

namespace Progress

/-- The place of a progress in the order of writing. -/
def rank : Progress → Nat
  | .sourceHead => 0
  | .destHead => 1
  | .sourceTail _ => 2
  | .destTail _ => 3
  | .sent => 4

/-- Whether every descriptor is written. -/
def isSent : Progress → Bool
  | .sent => true
  | _ => false

/-- The name of a progress. -/
def label : Progress → String
  | .sourceHead => "send-src-first"
  | .destHead => "send-dest-first"
  | .sourceTail next => s!"send-src-rest[{next}]"
  | .destTail next => s!"send-dest-rest[{next}]"
  | .sent => "sent"

/-- The chunk that is written next: its side and its number. -/
def target? : Progress → Option (Side × Nat)
  | .sourceHead => some (.source, 0)
  | .destHead => some (.dest, 0)
  | .sourceTail next => some (.source, next)
  | .destTail next => some (.dest, next)
  | .sent => none

/-- The progress at the start of the destination tail, in a transfer of `m` destination pages. -/
def startDestTail (m : Nat) : Progress :=
  if 1 < m then .destTail 1 else .sent

/-- The progress after one more descriptor, in a transfer of `n` source and `m` destination
pages. -/
def advance (n m : Nat) : Progress → Progress
  | .sourceHead => .destHead
  | .destHead => if 1 < n then .sourceTail 1 else startDestTail m
  | .sourceTail next => if next + 1 = n then startDestTail m else .sourceTail (next + 1)
  | .destTail next => if next + 1 = m then .sent else .destTail (next + 1)
  | .sent => .sent

/-- How many source descriptors are written, of `n`. -/
def sourceCursor (n : Nat) : Progress → Nat
  | .sourceHead => 0
  | .destHead => 1
  | .sourceTail next => next
  | .destTail _ => n
  | .sent => n

/-- How many destination descriptors are written, of `m`. -/
def destCursor (m : Nat) : Progress → Nat
  | .sourceHead => 0
  | .destHead => 0
  | .sourceTail _ => 1
  | .destTail next => next
  | .sent => m

/-- How many descriptors are still to be written, of `n` and `m`. -/
def remaining (n m : Nat) (p : Progress) : Nat :=
  (n - p.sourceCursor n) + (m - p.destCursor m)

/-- Writing a chunk that exists leaves less to write. -/
theorem remaining_advance_lt {n m : Nat} {p : Progress} {side : Side} {i : Nat}
    (h : p.target? = some (side, i)) (hi : i < match side with | .source => n | .dest => m) :
    (p.advance n m).remaining n m < p.remaining n m := by
  cases p <;> simp only [target?, Option.some.injEq, Prod.mk.injEq, reduceCtorEq] at h <;>
    obtain ⟨rfl, rfl⟩ := h <;> simp only at hi <;>
    grind [advance, startDestTail, remaining, sourceCursor, destCursor]

end Progress

end DmaQueue

/-
  DmaQueue.Request.OutputLength

  How many bytes come out of the function units for the bytes that go in.
  Unit 1 doubles a stream, unit 2 passes it on, unit 3 halves it; any other
  unit copies it.  A stream that enters at unit 1 or 2 can be chained into the
  units after it, by the low bits of the attribute.
-/
import DmaQueue.Request.Basic
import DmaQueue.Word

namespace DmaQueue.Request

open Word

/-- Whether bit `place` of a signed word is set, in two's complement. -/
def bit (word : Int32) (place : Nat) : Bool :=
  (word.toInt >>> place) % 2 == 1

/-- Whether the stream runs through the halving unit: it enters there, or it is chained into it
over every unit in between. -/
def halves (opcode attr : Int32) : Bool :=
  opcode == 3 || (opcode == 2 && bit attr 0) ||
    (opcode == 1 && bit attr 0 && bit attr 1)

/-- The number of bytes that come out for `input` bytes; none where doubling leaves the word. -/
def outputLength (opcode attr : Int32) (input : UInt64) : Option UInt64 := do
  -- Doubling comes first, so it can fail where the halved result would have fitted again.
  let stretched ← if opcode == 1 then double? input else some input
  return if halves opcode attr then stretched / 2 else stretched

end DmaQueue.Request

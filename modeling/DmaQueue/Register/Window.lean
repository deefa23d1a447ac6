/-
  DmaQueue.Register.Window

  A control block over plain memory: a window of 32-bit words in which a read
  gives back what was written last.
-/
import DmaQueue.Register.Basic

namespace DmaQueue

/-- A window of 32-bit words. -/
structure RegisterWindow where
  /-- The words, from offset 0 on. -/
  words : List UInt32
  deriving DecidableEq, Repr

namespace RegisterWindow

/-- The size of the window in bytes. -/
def length (window : RegisterWindow) : Nat :=
  4 * window.words.length

/-- The position of the word at `offset`.  The offset has to be a multiple of four, and the word has
to lie inside the window. -/
def position (window : RegisterWindow) (offset : UInt64) : Except Fault Nat := do
  -- An offset that is neither aligned nor inside is reported as unaligned.
  if offset % 4 ≠ 0 then
    .error (.registerUnaligned offset)
  else do
    let stop ← Word.checkedAdd offset 4
    if window.length < stop.toNat then
      .error (.registerOutside offset)
    else
      return offset.toNat / 4

/-- The window with `value` at `offset`. -/
def set (window : RegisterWindow) (offset : UInt64) (value : UInt32) :
    Except Fault RegisterWindow := do
  let i ← window.position offset
  return { words := window.words.set i value }

/-- The word at `offset`. -/
def get (window : RegisterWindow) (offset : UInt64) : Except Fault UInt32 := do
  let i ← window.position offset
  match window.words[i]? with
  | some value => return value
  | none => .error .outOfRange

instance : Registers RegisterWindow where
  load offset := do
    let window ← Act.get
    Act.ofExcept (window.get offset)
  store offset value := do
    let window ← Act.get
    let changed ← Act.ofExcept (window.set offset value)
    Act.modify fun _ => changed

end RegisterWindow

end DmaQueue
